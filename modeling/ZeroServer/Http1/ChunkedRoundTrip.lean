/-
This file proves that the chunked decoder undoes the chunked encoder and stops exactly behind
the message. The encoder's digit loop writes the shortest numeral of a length; the decoder's
digit loop reads it back; what follows is one lemma per chunk and an induction over the chunks,
with any bytes behind the last one.
-/

import ZeroServer.Http1.ChunkedStable
import ZeroServer.Http1.Framing

namespace ZeroServer.Http1

open Lib

/-! ### The size line -/

variable {len : Nat}

/-- The shortest hexadecimal numeral of a length, in lowercase. -/
def hexNumeral (len : Nat) : Bytes := (lowDigits 16 len).reverse.map glyph

/-- What a digit loop writes: the digits from the least significant one on, behind those
already written. -/
theorem headerDigits_eq (value count : Nat) (digits : Bytes)
    (room : count + (lowDigits 16 value).length ≤ digits.length) :
    headerDigits value count digits =
      (digits.take count ++ (lowDigits 16 value).map glyph ++
        digits.drop (count + (lowDigits 16 value).length), count + (lowDigits 16 value).length) := by
  fun_induction headerDigits value count digits with
  | case1 value count digits written last =>
    rw [lowDigits_eq (by decide), if_pos last] at room ⊢
    simp only [List.length_singleton] at room ⊢
    have front := take_set_succ (show count < digits.length by omega) (glyph (value % 16))
    have back : written.drop (count + 1) = digits.drop (count + 1) :=
      List.drop_set_of_lt (by omega)
    rw [List.map_singleton, ← front, ← back, List.take_append_drop]
  | case2 value count digits written more inductionHypothesis =>
    rw [lowDigits_eq (by decide), if_neg more] at room ⊢
    rw [List.length_cons] at room ⊢
    rw [inductionHypothesis (by rw [List.length_set]; omega), take_set_succ (by omega),
      List.drop_set_of_lt (by omega)]
    simp only [List.map_cons, List.append_assoc, List.cons_append, List.nil_append,
      Nat.add_assoc, Nat.add_comm 1]

/-- The array's digits are read back from the most significant one on. -/
theorem digits_reversed (digits : Bytes) (count : Nat) (room : count ≤ digits.length) :
    ((List.range count).map fun index => digits[count - 1 - index]?.getD 48) =
      (digits.take count).reverse := by
  refine List.ext_getElem (by simp [room]) fun index here there => ?_
  simp only [List.length_map, List.length_range] at here
  simp only [List.getElem_map, List.getElem_range, List.getElem_reverse, List.length_take,
    List.getElem_take, Nat.min_eq_left room]
  rw [List.getElem?_eq_getElem (by omega), Option.getD_some]

theorem length_hexNumeral_le (small : len < 2 ^ 64) : (hexNumeral len).length ≤ 16 := by
  rw [hexNumeral, List.length_map, List.length_reverse]
  exact length_lowDigits_le (by decide) (by decide) (by omega)

/-- What `chunk_header` writes. -/
theorem chunkHeader_eq (small : len < 2 ^ 64) (out : Bytes) :
    chunkHeader len out =
      if (hexNumeral len).length + 2 ≤ out.length then
        (some ((hexNumeral len).length + 2),
          hexNumeral len ++ crlf ++ out.drop ((hexNumeral len).length + 2))
      else (none, out) := by
  have length : (hexNumeral len).length = (lowDigits 16 len).length := by
    rw [hexNumeral, List.length_map, List.length_reverse]
  have room := length_hexNumeral_le small
  rw [length] at room ⊢
  unfold chunkHeader
  rw [headerDigits_eq len 0 _ (by rw [List.length_replicate]; omega)]
  simp only [List.take_zero, List.nil_append, Nat.zero_add]
  rw [digits_reversed _ _ (by rw [List.length_append, List.length_map]; omega),
    List.take_append_of_le_length (by rw [List.length_map]),
    List.take_of_length_le (by rw [List.length_map]), ← List.map_reverse]
  rfl

/-- The value of a string of hexadecimal digits in either case. -/
def hexNumber (text : Bytes) : Nat :=
  numeral 16 0 (text.map fun byte => ((ChunkedDecoder.hexValue byte).getD 0).toNat)

theorem hexValue_glyph {digit : Nat} (small : digit < 16) :
    ChunkedDecoder.hexValue (glyph digit) = some (UInt8.ofNat digit) := by
  have table : ∀ value < 16, ChunkedDecoder.hexValue (glyph value) = some (UInt8.ofNat value) := by
    decide
  exact table digit small

theorem hexValue_lt (byte : UInt8) : ((ChunkedDecoder.hexValue byte).getD 0).toNat < 16 := by
  have table : ∀ value < 256,
      ((ChunkedDecoder.hexValue (UInt8.ofNat value)).getD 0).toNat < 16 := by
    decide +kernel
  have read := table byte.toNat byte.toNat_lt
  rwa [UInt8.ofNat_toNat] at read

theorem toNat_ofNat_digit {digit : Nat} (small : digit < 16) : (UInt8.ofNat digit).toNat = digit := by
  rw [UInt8.toNat_ofNat']
  omega

theorem hexNumeral_digits (len : Nat) : ∀ digit ∈ (lowDigits 16 len).reverse, digit < 16 :=
  fun digit member => lowDigits_lt (by decide) len digit (List.mem_reverse.mp member)

/-- The numeral of a length reads back as the length. -/
theorem hexNumber_hexNumeral (len : Nat) : hexNumber (hexNumeral len) = len := by
  have same : ∀ digits : List Nat, (∀ digit ∈ digits, digit < 16) →
      ((digits.map glyph).map fun byte => ((ChunkedDecoder.hexValue byte).getD 0).toNat) =
        digits := by
    intro digits every
    rw [List.map_map]
    refine (List.map_congr_left fun digit member => ?_).trans (List.map_id digits)
    rw [Function.comp_apply, hexValue_glyph (every digit member), Option.getD_some,
      toNat_ofNat_digit (every digit member), id]
  rw [hexNumber, hexNumeral, same _ (hexNumeral_digits len), numeral_lowDigits]

/-- No string of hexadecimal digits for a length is shorter than its numeral. -/
theorem hexNumeral_shortest {text : Bytes} (some_ : text ≠ []) (same : hexNumber text = len) :
    (hexNumeral len).length ≤ text.length := by
  rw [hexNumeral, List.length_map, List.length_reverse]
  refine Nat.le_trans (lowDigits_shortest (by decide) (by simpa using some_) ?_ same) ?_
  · intro digit member
    obtain ⟨byte, -, rfl⟩ := List.mem_map.mp member
    exact hexValue_lt byte
  · rw [List.length_map]

/-! ### Chunks -/

/-- A chunk as it goes over the wire. -/
def chunkBytes (block : Bytes) : Bytes := hexNumeral block.length ++ crlf ++ block ++ crlf

/-- What `encode_chunk` writes. -/
theorem encodeChunk_eq {block out : Bytes} (some_ : block ≠ []) (small : block.length < 2 ^ 64)
    (addressable : out.length < 2 ^ 64) :
    encodeChunk block out =
      if (chunkBytes block).length ≤ out.length then
        (some (chunkBytes block).length, chunkBytes block ++ out.drop (chunkBytes block).length)
      else (none, out) := by
  have short := length_hexNumeral_le small
  have length : (chunkBytes block).length = (hexNumeral block.length).length + 2 + block.length + 2 := by
    simp only [chunkBytes, List.length_append, crlf, List.length_cons, List.length_nil]
  have header : (hexNumeral block.length ++ crlf).length = (hexNumeral block.length).length + 2 := by
    rw [List.length_append]
    rfl
  unfold encodeChunk
  rw [if_neg (by simpa using some_), chunkHeader_eq small,
    if_pos (by rw [List.length_replicate, maxChunkHeaderLen]; omega)]
  dsimp only
  rw [checkedAdd_bind, length]
  by_cases fits : (hexNumeral block.length).length + 2 + block.length + 2 ≤ out.length
  · rw [if_pos (show _ < u64Size from Nat.lt_of_le_of_lt fits addressable)]
    dsimp only
    rw [if_pos fits, if_pos fits, ← header, List.take_left]
    rfl
  · rw [if_neg fits]
    split
    · rfl
    · rename_i total summed
      split at summed
      · cases summed
        rw [if_neg fits]
      · cases summed

namespace ChunkedDecoder

/-- The digit loop reads a numeral that fits, up to the byte behind it. -/
theorem sizeDigits_glyphs {limits : Http1Limits} {digits : List Nat} {count length : Nat}
    {stop : UInt8} (rest : Bytes) (small : ∀ digit ∈ digits, digit < 16)
    (few : count + digits.length ≤ limits.maxChunkSizeDigits)
    (fits : numeral 16 length digits < u64Size) (ends : hexValue stop = none) :
    sizeDigits limits count length (digits.map glyph ++ stop :: rest) =
      .ok (count + digits.length, numeral 16 length digits) := by
  induction digits generalizing count length with
  | nil =>
    rw [List.map_nil, List.nil_append, sizeDigits, ends]
    rfl
  | cons digit others inductionHypothesis =>
    rw [List.forall_mem_cons] at small
    rw [List.length_cons] at few ⊢
    rw [numeral_cons] at fits ⊢
    have below := Nat.lt_of_le_of_lt (le_numeral (by decide) (length * 16 + digit) others) fits
    rw [List.map_cons, List.cons_append, sizeDigits, hexValue_glyph small.1]
    dsimp only
    rw [if_neg (by omega), toNat_ofNat_digit small.1, checked_digit, if_pos below]
    dsimp only
    rw [inductionHypothesis small.2 (by omega) fits]
    congr 2
    omega

variable {limits : Http1Limits}

/-- The size line of a length, whatever follows. -/
theorem sizeFraming_hexNumeral (small : len < 2 ^ 64) (digits : 16 ≤ limits.maxChunkSizeDigits)
    (rest : Bytes) :
    sizeFraming (hexNumeral len ++ crlf ++ rest) limits =
      .complete (len, (hexNumeral len).length + 2) := by
  have short := length_hexNumeral_le small
  have length : (lowDigits 16 len).reverse.length = (hexNumeral len).length := by
    rw [hexNumeral, List.length_map]
  have some_ : 0 < (hexNumeral len).length := by
    rw [← length, List.length_reverse]
    exact List.length_pos_of_ne_nil (lowDigits_ne_nil (by decide) len)
  have read : sizeDigits limits 0 0 (hexNumeral len ++ crlf ++ rest) =
      .ok ((hexNumeral len).length, len) := by
    have loop := @sizeDigits_glyphs limits (lowDigits 16 len).reverse 0 0 cr (lf :: rest)
      (hexNumeral_digits len) (by omega) (by rw [numeral_lowDigits]; exact small) (by decide)
    rw [Nat.zero_add, length, numeral_lowDigits] at loop
    rw [List.append_assoc]
    exact loop
  have behind : tail (hexNumeral len ++ crlf ++ rest) (hexNumeral len).length = cr :: lf :: rest := by
    rw [tail, List.append_assoc, List.drop_left]
    rfl
  have stops : scanHeaderValue (cr :: lf :: rest) = 0 := by
    simp [scanHeaderValue, scan, List.findIdx_cons, cr, isValueByte]
  have ends : expectCrlf (hexNumeral len ++ crlf ++ rest) ((hexNumeral len).length + 0) = .found := by
    rw [expectCrlf_found, Nat.add_zero, ← Nat.add_zero (hexNumeral len).length, ← tail_getElem?,
      Nat.add_zero, ← tail_getElem?, behind]
    exact ⟨rfl, rfl⟩
  unfold sizeFraming
  rw [read]
  dsimp only
  rw [if_neg (by simp only [List.length_append, crlf, List.length_cons]; omega),
    if_neg (by omega), behind, stops, if_neg (by omega), ends]
  rfl

/-- One chunk in front of anything. -/
theorem decodeRun_chunk {block : Bytes} (some_ : block ≠ []) (small : block.length < 2 ^ 64)
    (digits : 16 ≤ limits.maxChunkSizeDigits) (rest : Bytes) :
    decodeRun limits size (chunkBytes block ++ rest) =
      (decodeRun limits size rest).after block (chunkBytes block).length := by
  have positive := List.length_pos_of_ne_nil some_
  have shape : chunkBytes block ++ rest =
      hexNumeral block.length ++ crlf ++ (block ++ (crlf ++ rest)) := by
    simp only [chunkBytes, List.append_assoc]
  have header : tail (hexNumeral block.length ++ crlf ++ (block ++ (crlf ++ rest)))
      ((hexNumeral block.length).length + 2) = block ++ (crlf ++ rest) := by
    have length : (hexNumeral block.length ++ crlf).length = (hexNumeral block.length).length + 2 := by
      rw [List.length_append]
      rfl
    rw [← length, tail, List.drop_left]
  have data_ : tail (block ++ (crlf ++ rest)) block.length = crlf ++ rest := List.drop_left
  have after : decodeRun limits dataEnd (crlf ++ rest) = (decodeRun limits size rest).after [] 2 := by
    rw [decodeRun_dataEnd]
    rfl
  rw [shape, decodeRun_size, sizeFraming_hexNumeral small digits]
  dsimp only
  rw [header, afterSize, if_neg (by omega), decodeRun_data positive,
    if_neg (by rw [List.length_append]; omega), data_, List.take_left, after, Run.after_after,
    Run.after_after]
  have length : (chunkBytes block).length =
      (hexNumeral block.length).length + 2 + (block.length + 2) := by
    simp only [chunkBytes, List.length_append, crlf, List.length_cons, List.length_nil]
    omega
  rw [length, List.nil_append, List.append_nil, ← Nat.add_assoc]

/-- The last chunk in front of anything. -/
theorem decodeRun_lastChunk (digits : 16 ≤ limits.maxChunkSizeDigits) (rest : Bytes) :
    decodeRun limits size (lastChunk ++ rest) = ⟨[], .done [] 5⟩ := by
  have shape : lastChunk ++ rest = hexNumeral 0 ++ crlf ++ (crlf ++ rest) := rfl
  have behind : tail (hexNumeral 0 ++ crlf ++ (crlf ++ rest)) ((hexNumeral 0).length + 2) =
      crlf ++ rest := rfl
  have ended : trailerFraming limits (crlf ++ rest) 0 = .complete 0 := by
    rw [trailerFraming, if_neg (Nat.not_lt_zero _)]
    rfl
  rw [shape, decodeRun_size, sizeFraming_hexNumeral (by decide) digits]
  dsimp only
  rw [afterSize, if_pos rfl, decodeRun_trailers, behind, ended]
  rfl

/-- Chunks and the last one, in front of anything. -/
theorem decodeRun_chunks {blocks : List Bytes}
    (every : ∀ block ∈ blocks, block ≠ [] ∧ block.length < 2 ^ 64)
    (digits : 16 ≤ limits.maxChunkSizeDigits) (rest : Bytes) :
    decodeRun limits size (blocks.flatMap chunkBytes ++ lastChunk ++ rest) =
      ⟨blocks.flatten, .done [] (blocks.flatMap chunkBytes ++ lastChunk).length⟩ := by
  induction blocks with
  | nil => exact decodeRun_lastChunk digits rest
  | cons block others inductionHypothesis =>
    rw [List.forall_mem_cons] at every
    rw [List.flatMap_cons, List.append_assoc, List.append_assoc,
      decodeRun_chunk every.1.1 every.1.2 digits, ← List.append_assoc, inductionHypothesis every.2]
    simp only [Run.after, Ending.after, List.flatten_cons, List.append_assoc, List.length_append]

end ChunkedDecoder

/-- Decoding undoes encoding and stops exactly at the end of the message. The size line is the
shortest hexadecimal numeral of the length, never longer than the buffer kept for it, and is
written whole or not at all; a chunk is written the same way; and chunks with the last one
behind them decode to their blocks with an empty trailer section, whatever follows. -/
theorem decodeRun_encodeChunk :
    (∀ (len : Nat) (out : Bytes), len < 2 ^ 64 →
      chunkHeader len out =
          (if (hexNumeral len).length + 2 ≤ out.length then
            (some ((hexNumeral len).length + 2),
              hexNumeral len ++ crlf ++ out.drop ((hexNumeral len).length + 2))
          else (none, out)) ∧
        (hexNumeral len).length + 2 ≤ maxChunkHeaderLen ∧ hexNumber (hexNumeral len) = len ∧
        ∀ text, text ≠ [] → hexNumber text = len → (hexNumeral len).length ≤ text.length) ∧
    (∀ block out : Bytes, block ≠ [] → block.length < 2 ^ 64 → out.length < 2 ^ 64 →
      encodeChunk block out =
        if (chunkBytes block).length ≤ out.length then
          (some (chunkBytes block).length, chunkBytes block ++ out.drop (chunkBytes block).length)
        else (none, out)) ∧
    ∀ (limits : Http1Limits) (blocks : List Bytes) (rest : Bytes),
      (∀ block ∈ blocks, block ≠ [] ∧ block.length < 2 ^ 64) → 16 ≤ limits.maxChunkSizeDigits →
      ChunkedDecoder.decodeRun limits .new (blocks.flatMap chunkBytes ++ lastChunk ++ rest) =
        ⟨blocks.flatten, .done [] (blocks.flatMap chunkBytes ++ lastChunk).length⟩ := by
  refine ⟨fun len out small => ⟨chunkHeader_eq small out, ?_, hexNumber_hexNumeral len,
    fun text some_ same => hexNumeral_shortest some_ same⟩,
    fun block out some_ small addressable => encodeChunk_eq some_ small addressable,
    fun limits blocks rest every digits => ChunkedDecoder.decodeRun_chunks every digits rest⟩
  exact Nat.add_le_add_right (length_hexNumeral_le small) 2

/-- Two blocks, the first of which looks like a last chunk, in front of a pipelined request. -/
theorem decodeRun_encodeChunk_pipelined :
    encodeChunk (ascii "0\r\n\r\n") (List.replicate 12 0) =
        (some 10, ascii "5\r\n0\r\n\r\n\r\n" ++ [0, 0]) ∧
      chunkHeader 255 [0, 0, 0] = (none, [0, 0, 0]) ∧
      ChunkedDecoder.decodeRun .default .new
          ([ascii "0\r\n\r\n", ascii "hello"].flatMap chunkBytes ++ lastChunk ++ ascii "GET /") =
        ⟨ascii "0\r\n\r\nhello", .done [] 25⟩ := by
  obtain ⟨header, chunk, chunks⟩ := decodeRun_encodeChunk
  refine ⟨?_, ?_, ?_⟩
  · rw [chunk _ _ (by decide) (by decide) (by decide)]
    decide +kernel
  · rw [(header 255 [0, 0, 0] (by decide)).1]
    decide +kernel
  · rw [chunks .default _ (ascii "GET /") (by decide +kernel) (by decide)]
    decide +kernel

/-- A message in front of a rest is read whole, the rest being left, or its head is refused. -/
def ReadWhole (limits : Http1Limits) (table : List Field) (text : HeadText)
    (body rest input : Bytes) : Prop :=
  (∃ reject, (parseRequest input table limits).1 = .reject reject) ∨
    ∃ head entries used, parseRequest input table limits = (.complete head, entries) ∧
      text.Describes head entries ∧ ChunkedDecoder.decodeRun limits .new (input.drop head.len) =
        ⟨body, .done [] used⟩ ∧ input.drop (head.len + used) = rest

end ZeroServer.Http1
