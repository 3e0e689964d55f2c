import LispBM.RoundTrip

namespace LispBM.Compression

theorem compressedLength_eq {s : List UInt8} (hnul : ∀ c ∈ s, c ≠ 0) {es : List Emit}
    (hloop : compressLoop (s.length % 2 ^ 32) (2 * (s.length % 2 ^ 32) + 2) s 0 false false = some es) :
    compressedLength s = (es.flatMap Emit.bits).length := by
  have h := compressLoop_count hnul (Nat.mod_le _ _) _ s 0 false false EncInv.start es 0 hloop
  rw [Int.zero_add] at h
  exact h

/-- The layout of a buffer `c` that `compression_compress(s)` returns: after the 32-bit
header come exactly the bits its loop emits, as many as `compressed_length(s)` counts and the
header stores, then padding to the `4 + ceil(bits / 8)` bytes it allocated, so that every bit it
sets lies inside the buffer. -/
def CountedBuffer (s : List UInt8) (c : List Bool) : Prop :=
  ∃ es, compressLoop (s.length % 2 ^ 32) (2 * (s.length % 2 ^ 32) + 2) s 0 false false = some es ∧
    ((es.flatMap Emit.bits).length : Int) = compressedLength s ∧
    c.length = 8 * (4 + (es.flatMap Emit.bits).length / 8 + if (es.flatMap Emit.bits).length % 8 > 0 then 1 else 0) ∧
    c = headerBits (es.flatMap Emit.bits).length ++ es.flatMap Emit.bits ++
      List.replicate (c.length - (32 + (es.flatMap Emit.bits).length)) false ∧
    32 + (es.flatMap Emit.bits).length ≤ c.length

/-- When the bit count and the 32 header bits stay below `2^31`, where the compressor's `int`
counters cannot overflow, every buffer `compression_compress` returns has that layout. -/
theorem compress_emits_counted_bits (s : List UInt8) (hnul : ∀ c ∈ s, c ≠ 0)
    (hbits : compressedLength s + 32 < 2 ^ 31) (c : List Bool) (hc : compressionCompress s = some c) :
    CountedBuffer s c := by
  cases hloop : compressLoop (s.length % 2 ^ 32) (2 * (s.length % 2 ^ 32) + 2) s 0 false false with
  | none => simp only [compressionCompress, hloop, Option.map_none', ite_self, reduceCtorEq] at hc
  | some es =>
    refine ⟨es, hloop, ?_⟩
    have hL := compressedLength_eq hnul hloop
    have hT : (es.flatMap Emit.bits).length % 2 ^ 32 = (es.flatMap Emit.bits).length :=
      Nat.mod_eq_of_lt (by omega)
    simp only [compressionCompress, hL, ge_iff_le, Int.ofNat_nonneg, ite_true, Int.toNat_ofNat, hT, hloop,
      Option.map_some'] at hc
    generalize es.flatMap Emit.bits = B at hL hc ⊢
    split at hc
    · cases hc
    obtain rfl := Option.some.inj hc
    have hhead : (headerBits B.length).length = 32 := by simp [headerBits]
    have hlen : (headerBits B.length ++ B ++ List.replicate (8 * (4 + B.length / 8 + if B.length % 8 > 0 then 1 else 0) -
        (headerBits B.length ++ B).length) false).length =
        8 * (4 + B.length / 8 + if B.length % 8 > 0 then 1 else 0) := by
      simp only [List.length_append, List.length_replicate, hhead]
      split <;> omega
    refine ⟨hL.symm, hlen, ?_, by rw [hlen]; split <;> omega⟩
    rw [hlen, List.length_append, hhead]

theorem compress_emits_counted_bits_sum : CountedBuffer sumSource ((compressionCompress sumSource).getD []) :=
  compress_emits_counted_bits sumSource (by decide) (by decide) _ rfl

theorem compressLoop_string_run {n : Nat} {str : List UInt8} {a : UInt8} (ha : a ≠ dq) (g : Bool) :
    ∀ k fuel i, (∀ j < k, charAt str (i + j) = a) → i + k ≤ n →
      compressLoop n (fuel + k) str i true g =
        (compressLoop n fuel str (i + k) true g).map (List.replicate k (.emitStringCharCode a) ++ ·) := by
  intro k
  induction k with
  | zero => intro fuel i _ _; simp
  | succ k ih =>
    intro fuel i hrun hle
    have hi : charAt str i = a := hrun 0 (by omega)
    rw [← Nat.add_assoc, compressLoop, if_pos (by omega), if_pos rfl, hi]
    simp only [ha, decide_False, Bool.false_and, Bool.false_eq_true, ite_false]
    rw [ih fuel (i + 1) (fun j hj => by rw [Nat.add_right_comm, Nat.add_assoc]; exact hrun (j + 1) (by omega))
      (by omega), Option.map_map, show i + 1 + k = i + (k + 1) by omega]
    rfl

/-- A quote and then `2^29` letters: a string literal that never closes. -/
def quotedRun : List UInt8 := dq :: List.replicate 536870912 97

/-- What the compressor emits for it: the quote's code, then a character code per letter. -/
def quotedEmits : List Emit := .emitCode 16 :: List.replicate 536870912 (.emitStringCharCode 97)

theorem flatMap_replicate_length (k : Nat) (e : Emit) :
    ((List.replicate k e).flatMap Emit.bits).length = k * e.bits.length := by
  induction k with
  | zero => simp
  | succ k ih => rw [List.replicate_succ, List.flatMap_cons, List.length_append, ih, Nat.succ_mul, Nat.add_comm]

/-- What the compressor's loop makes of a string that, to its 32-bit length, is a quote and `2^29`
letters. -/
private theorem compressLoop_quoted {s : List UInt8} (hlen : s.length % 2 ^ 32 = 536870913)
    (h0 : charAt s 0 = dq) (hrun : ∀ j < 536870912, charAt s (1 + j) = 97) (hkey : matchLongestKey s = some 16) :
    compressLoop (s.length % 2 ^ 32) (2 * (s.length % 2 ^ 32) + 2) s 0 false false = some quotedEmits := by
  rw [hlen, show 2 * 536870913 + 2 = 536870915 + 536870912 + 1 from rfl, compressLoop, if_pos (by decide)]
  simp only [Bool.false_eq_true, ite_false, h0, show dq ≠ semi by decide, show isGobbled dq = false by decide,
    List.drop_zero, hkey, decide_True, Nat.zero_add, show (key 16).length = 1 from rfl]
  rw [compressLoop_string_run (by decide) false 536870912 536870915 1 hrun (by decide),
    show (536870915 : Nat) = 536870914 + 1 from rfl, compressLoop, if_neg (by decide)]
  simp only [Option.map_some', List.append_nil, quotedEmits]

/-- The compressor's header and buffer size wrap at `2^32` bits: the quote and `2^29` letters
compress to `2^32 + 6` bits, which is what `compressed_length` counts, but the header stores 6 and
the buffer is sized for 6, so the bits run past its 5 bytes. -/
theorem compress_overflows_buffer :
    (∀ c ∈ quotedRun, c ≠ 0) ∧ compressedLength quotedRun = 4294967302 ∧
      compressionCompress quotedRun = some (headerBits 6 ++ quotedEmits.flatMap Emit.bits) ∧
      (quotedEmits.flatMap Emit.bits).length = 4294967302 := by
  have hnul : ∀ c ∈ quotedRun, c ≠ 0 := by
    simp only [quotedRun, List.mem_cons, List.mem_replicate]
    rintro c (rfl | ⟨-, rfl⟩) <;> decide
  have hlen : quotedRun.length % 2 ^ 32 = 536870913 := by
    rw [quotedRun, List.length_cons, List.length_replicate]
    rfl
  have hkey : matchLongestKey quotedRun = some 16 := by
    rw [matchLongestKey, hlen]
    decide
  have hrun : ∀ j < 536870912, charAt quotedRun (1 + j) = 97 := fun j hj => by
    rw [quotedRun, charAt, Nat.add_comm, List.getD_cons_succ, List.getD_eq_getElem?_getD, List.getElem?_replicate,
      if_pos hj, Option.getD_some]
  have hloop := compressLoop_quoted hlen rfl hrun hkey
  have hbits : (quotedEmits.flatMap Emit.bits).length = 4294967302 := by
    rw [quotedEmits, List.flatMap_cons, List.length_append, flatMap_replicate_length]
    rfl
  have hL : compressedLength quotedRun = 4294967302 := by rw [compressedLength_eq hnul hloop, hbits]; rfl
  refine ⟨hnul, hL, ?_, hbits⟩
  have h6 : (if (4294967302 : Int) ≥ 0 then (4294967302 : Int).toNat % 2 ^ 32 else 0) = 6 := by decide
  have hhead : (headerBits 6).length = 32 := by simp [headerBits]
  simp only [compressionCompress, hL, hloop, Option.map_some', h6, List.length_append, hhead, hbits]
  rw [if_neg (by decide), show 8 * (4 + 6 / 8 + if 6 % 8 > 0 then 1 else 0) - (32 + 4294967302) = 0 from rfl,
    List.replicate_zero, List.append_nil]

/-- `compression_decompress` never reads `dest_n` but to clear `dest`: its result and the
characters it copies to `dest`, from `dest[0]` on, are those of a call with no room at all. -/
theorem compressionDecompress_destN (destN : Nat) (src : List Bool) :
    compressionDecompress destN src =
      ((compressionDecompress 0 src).1,
        (compressionDecompress 0 src).2 ++ List.replicate (destN - (compressionDecompress 0 src).2.length) 0) := by
  dsimp only [compressionDecompress]
  rcases decompressLoop src ((compressionInitState src).compressedBits + 1) (compressionInitState src) with
    ⟨ok, out⟩
  simp only [Nat.zero_sub, List.replicate_zero, List.append_nil]

/-- The compressed `()`, two characters, decompressed into a one-byte `dest`: the call returns
true, and `dest` then holds both characters. -/
theorem decompress_writes_past_dest :
    (compressionCompress [40, 41]).map (compressionDecompress 1) = some (true, [40, 41]) := by
  -- the one byte of room only decides the padding: the call copies what a call with none copies
  rw [funext (compressionDecompress_destN 1)]
  decide

end LispBM.Compression
