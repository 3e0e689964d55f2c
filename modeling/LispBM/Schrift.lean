import Mathlib.Algebra.Group.Nat.Basic
import Mathlib.Data.List.Basic

namespace LispBM.Schrift

/-- A failed `assert(offset + k <= font->size)` of a `getu`k, or a search probe reading `k`
bytes past the font's end. -/
structure Fault where
  offset : Nat
  width : Nat
  deriving DecidableEq, Repr

/-- An `SFT_Font`: its bytes and the fields `init_font` fills in. -/
structure SFTFont where
  memory : List UInt8
  unitsPerEm : Nat
  locaFormat : Int
  numLongHmtx : Nat

abbrev Read := Except Fault

namespace SFTFont

def size (font : SFTFont) : Nat := font.memory.length

def byteAt (font : SFTFont) (i : Nat) : Nat := (font.memory.getD i 0).toNat

end SFTFont

variable (font : SFTFont)

def isSafeOffset (offset margin : Nat) : Bool :=
  !(offset > font.size) && !(font.size - offset < margin)

/-- The bytes `offset .. offset + k - 1`, read under the bound of the `getu`k asserts. -/
def readBytes (offset k : Nat) : Read (List Nat) :=
  if offset + k ≤ font.size then .ok ((List.range k).map fun j => font.byteAt (offset + j))
  else .error ⟨offset, k⟩

/-- Big-endian value of bytes. -/
def beValue (bs : List Nat) : Nat := bs.foldl (fun acc b => acc * 256 + b) 0

def getu8 (offset : Nat) : Read Nat := beValue <$> readBytes font offset 1

def getu16 (offset : Nat) : Read Nat := beValue <$> readBytes font offset 2

def geti16 (offset : Nat) : Read Int := do
  let v ← getu16 font offset
  return if v < 0x8000 then v else (v : Int) - 0x10000

def getu32 (offset : Nat) : Read Nat := beValue <$> readBytes font offset 4

/-- `memcmp` on byte strings of one length. -/
def compareBytes : List Nat → List Nat → Ordering
  | a :: as, b :: bs => if a < b then .lt else if b < a then .gt else compareBytes as bs
  | _, _ => .eq

/-- `memcmp(key, &memory[p], key.length)` as the search's comparison functions call it. -/
def memcmpAt (key : List Nat) (p : Nat) : Read Ordering := do
  let bs ← readBytes font p key.length
  return compareBytes key bs

/-- glibc's `bsearch` over `nmemb` records of `size` bytes at `base`: the record's offset. -/
def bsearch (key : List Nat) (base size : Nat) : Nat → Nat → Nat → Read (Option Nat)
  | 0, _, _ => .ok none
  | fuel + 1, l, u =>
    if l < u then do
      let idx := (l + u) / 2
      match ← memcmpAt font key (base + idx * size) with
      | .lt => bsearch key base size fuel l idx
      | .gt => bsearch key base size fuel (idx + 1) u
      | .eq => return some (base + idx * size)
    else .ok none

/-- `csearch`: the first record not below the key, or the last one. -/
def csearch (key : List Nat) (base nmemb size : Nat) : Read (Option Nat) :=
  if nmemb = 0 then .ok none else loop nmemb 0 (nmemb - 1)
where
  loop : Nat → Nat → Nat → Read (Option Nat)
  | 0, low, _ => .ok (some (base + low * size))
  | fuel + 1, low, high =>
    if low ≠ high then do
      let mid := low + (high - low) / 2
      if (← memcmpAt font key (base + mid * size)) = .gt then loop fuel (mid + 1) high
      else loop fuel low mid
    else .ok (some (base + low * size))

def tagCmap : List Nat := [0x63, 0x6d, 0x61, 0x70]
def tagHead : List Nat := [0x68, 0x65, 0x61, 0x64]
def tagHhea : List Nat := [0x68, 0x68, 0x65, 0x61]

/-- `gettable`: the table's offset, `none` for `-1`. -/
def gettable (tag : List Nat) : Read (Option Nat) := do
  let numTables ← getu16 font 4
  if !isSafeOffset font 12 (numTables * 16) then return none
  match ← bsearch font tag 12 16 numTables 0 numTables with
  | none => return none
  | some m => some <$> getu32 font (m + 8)

def fileMagicOne : Nat := 0x00010000
def fileMagicTwo : Nat := 0x74727565

/-- `init_font`: the font with its fields filled in, `none` for `-1`. -/
def initFont : Read (Option SFTFont) := do
  if !isSafeOffset font 0 12 then return none
  let scalerType ← getu32 font 0
  if scalerType ≠ fileMagicOne && scalerType ≠ fileMagicTwo then return none
  let some head ← gettable font tagHead | return none
  if !isSafeOffset font head 54 then return none
  let unitsPerEm ← getu16 font (head + 18)
  let locaFormat ← geti16 font (head + 50)
  let some hhea ← gettable font tagHhea | return none
  if !isSafeOffset font hhea 36 then return none
  let numLongHmtx ← getu16 font (hhea + 34)
  return some { font with unitsPerEm, locaFormat, numLongHmtx }

/-- `cmap_fmt4`: the return code and the glyph. -/
def cmapFmt4 (table charCode : Nat) : Read (Int × Nat) := do
  if charCode > 0xFFFF then return (0, 0)
  let shortCode := charCode
  if !isSafeOffset font table 8 then return (-1, 0)
  let segCountX2 ← getu16 font table
  if segCountX2 % 2 = 1 || segCountX2 = 0 then return (-1, 0)
  let endCodes := table + 8
  let startCodes := endCodes + segCountX2 + 2
  let idDeltas := startCodes + segCountX2
  let idRangeOffsets := idDeltas + segCountX2
  if !isSafeOffset font idRangeOffsets segCountX2 then return (-1, 0)
  let some segPtr ← csearch font [charCode / 256 % 256, charCode % 256] endCodes (segCountX2 / 2) 2
    | return (0, 0)
  let segIdxX2 := segPtr - endCodes
  let startCode ← getu16 font (startCodes + segIdxX2)
  if startCode > shortCode then return (0, 0)
  let idDelta ← getu16 font (idDeltas + segIdxX2)
  let idRangeOffset ← getu16 font (idRangeOffsets + segIdxX2)
  if idRangeOffset = 0 then return (0, (shortCode + idDelta) % 0x10000)
  let idOffset := idRangeOffsets + segIdxX2 + idRangeOffset + 2 * (shortCode - startCode)
  if !isSafeOffset font idOffset 2 then return (-1, 0)
  let id ← getu16 font idOffset
  return (0, if id ≠ 0 then (id + idDelta) % 0x10000 else 0)

/-- `cmap_fmt6`. -/
def cmapFmt6 (table charCode : Nat) : Read (Int × Nat) := do
  if charCode > 0xFFFF then return (0, 0)
  if !isSafeOffset font table 4 then return (-1, 0)
  let firstCode ← getu16 font table
  let entryCount ← getu16 font (table + 2)
  if !isSafeOffset font table (4 + 2 * entryCount) then return (-1, 0)
  if charCode < firstCode then return (-1, 0)
  let charCode := charCode - firstCode
  if !(charCode < entryCount) then return (-1, 0)
  return (0, ← getu16 font (table + 4 + 2 * charCode))

/-- The group loop of `cmap_fmt12_13` from group `i`, `n` groups left. -/
def fmt12Groups (table charCode which : Nat) : Nat → Nat → Read (Int × Nat)
  | 0, _ => return (0, 0)
  | n + 1, i => do
    let firstCode ← getu32 font (table + i * 12 + 16)
    let lastCode ← getu32 font (table + i * 12 + 16 + 4)
    if charCode < firstCode || charCode > lastCode then fmt12Groups table charCode which n (i + 1)
    else
      let glyphOffset ← getu32 font (table + i * 12 + 16 + 8)
      return (0, if which = 12 then (charCode - firstCode + glyphOffset) % 2 ^ 32 else glyphOffset)

/-- `cmap_fmt12_13`. -/
def cmapFmt12_13 (table charCode which : Nat) : Read (Int × Nat) := do
  if !isSafeOffset font table 16 then return (-1, 0)
  let len ← getu32 font (table + 4)
  if len < 16 then return (-1, 0)
  if !isSafeOffset font table len then return (-1, 0)
  let numEntries ← getu32 font (table + 12)
  fmt12Groups font table charCode which numEntries 0

/-- The first encoding record of `cmap` from `idx` whose type is wanted, `n` records left. -/
def findEntry (cmap : Nat) (wanted : Nat → Bool) : Nat → Nat → Read (Option Nat)
  | 0, _ => return none
  | n + 1, idx => do
    let entry := cmap + 4 + idx * 8
    let type := (← getu16 font entry) * 0o100 + (← getu16 font (entry + 2))
    if wanted type then return some entry else findEntry cmap wanted n (idx + 1)

/-- `glyph_id`. -/
def glyphId (charCode : Nat) : Read (Int × Nat) := do
  let some cmap ← gettable font tagCmap | return (-1, 0)
  if !isSafeOffset font cmap 4 then return (-1, 0)
  let numEntries ← getu16 font (cmap + 2)
  if !isSafeOffset font cmap (4 + numEntries * 8) then return (-1, 0)
  match ← findEntry font cmap (fun t => t = 0o004 || t = 0o312) numEntries 0 with
  | some entry =>
    let table := cmap + (← getu32 font (entry + 4))
    if !isSafeOffset font table 8 then return (-1, 0)
    if (← getu16 font table) = 12 then cmapFmt12_13 font table charCode 12 else return (-1, 0)
  | none =>
    match ← findEntry font cmap (fun t => t = 0o003 || t = 0o301) numEntries 0 with
    | some entry =>
      let table := cmap + (← getu32 font (entry + 4))
      if !isSafeOffset font table 6 then return (-1, 0)
      match ← getu16 font table with
      | 4 => cmapFmt4 font (table + 6) charCode
      | 6 => cmapFmt6 font (table + 6) charCode
      | _ => return (-1, 0)
    | none => return (-1, 0)

/-- `sft_lookup`. -/
def sftLookup (codepoint : Nat) : Read (Int × Nat) := glyphId font codepoint

/-- An 88-byte font: the header, table records for `cmap` (at 60), `head` and `hhea` (both at
0), a `cmap` with one (3, 10) record, and a format 12 table of length 16 that claims one group. -/
def shortGroupsFont : SFTFont where
  memory := [0x00, 0x01, 0x00, 0x00, 0x00, 0x03, 0x00, 0x00, 0x00, 0x00, 0x00, 0x00,
             0x63, 0x6d, 0x61, 0x70, 0x00, 0x00, 0x00, 0x00, 0x00, 0x00, 0x00, 0x3c,
             0x00, 0x00, 0x00, 0x00,
             0x68, 0x65, 0x61, 0x64, 0x00, 0x00, 0x00, 0x00, 0x00, 0x00, 0x00, 0x00,
             0x00, 0x00, 0x00, 0x00,
             0x68, 0x68, 0x65, 0x61, 0x00, 0x00, 0x00, 0x00, 0x00, 0x00, 0x00, 0x00,
             0x00, 0x00, 0x00, 0x00,
             0x00, 0x00, 0x00, 0x01, 0x00, 0x03, 0x00, 0x0a, 0x00, 0x00, 0x00, 0x0c,
             0x00, 0x0c, 0x00, 0x00, 0x00, 0x00, 0x00, 0x10, 0x00, 0x00, 0x00, 0x00,
             0x00, 0x00, 0x00, 0x01]
  unitsPerEm := 0
  locaFormat := 0
  numLongHmtx := 0

/-- `init_font` accepts the font, and `sft_lookup` of every code point then reads the first
group's `firstCode` at offset 88, past the font's last byte. -/
theorem lookup_reads_past_font_end :
    (initFont shortGroupsFont).map Option.isSome = .ok true ∧
      ∀ codepoint, sftLookup shortGroupsFont codepoint = .error ⟨88, 4⟩ :=
  ⟨rfl, fun _ => rfl⟩

end LispBM.Schrift
