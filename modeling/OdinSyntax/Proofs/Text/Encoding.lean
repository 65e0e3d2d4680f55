import Mathlib.Data.String.Basic
import Mathlib.Order.Monotone.Basic
import OdinSyntax.Proofs.Text.Common
import OdinSyntax.Text.Reader

/-!
# Characters and bytes

A snapshot hands out a text by characters, as slices and through readers, and by byte offsets into
its UTF-8 encoding. Offsets are those of characters in ASCII; any other text has a table of the byte
offsets of its characters and of its end.

The entry of an offset is the encoded length of the characters before it
(`getElem?_byteOffsetsFrom`). In ASCII that is their number, so the table, which is not made then,
would say the same (`utf8Len_of_isAscii`). The encoding of a text is that of its beginning followed
by that of its rest, hence the bytes between two byte offsets are the encoding of the characters
between the two offsets (`extract_utf8Encode`).
-/

namespace OdinSyntax

open Source

variable {chars : List Char} {offset : Nat}

/-! ## Encoded lengths -/

theorem size_utf8Encode (chars : List Char) :
    chars.utf8Encode.size = String.utf8Len chars := by
  rw [← String.toByteArray_ofList, String.size_toByteArray, String.utf8ByteSize_ofList]

theorem utf8Size_of_isAscii {c : Char} (h : isAscii c = true) : c.utf8Size = 1 := by
  rw [Char.utf8Size_eq_one_iff, UInt32.le_iff_toNat_le]
  exact Nat.le_of_lt_succ (of_decide_eq_true h)

/-- Encoded, an ASCII text is as long as it is. -/
theorem utf8Len_of_isAscii (h : chars.all isAscii = true) :
    String.utf8Len chars = chars.length := by
  induction chars with
  | nil => rfl
  | cons c rest ih =>
    rw [List.all_cons, Bool.and_eq_true] at h
    rw [String.utf8Len_cons, ih h.2, utf8Size_of_isAscii h.1, List.length_cons]

/-- Each character of an ASCII text is a byte of its encoding. -/
theorem utf8Encode_of_isAscii (h : chars.all isAscii = true) :
    chars.utf8Encode.data.toList = chars.map fun c => c.val.toUInt8 := by
  rw [List.utf8Encode, List.data_toByteArray, List.toList_toArray]
  induction chars with
  | nil => rfl
  | cons c rest ih =>
    rw [List.all_cons, Bool.and_eq_true] at h
    rw [List.flatMap_cons, String.utf8EncodeChar_eq_singleton (utf8Size_of_isAscii h.1), ih h.2]
    rfl

/-- More characters take more bytes. -/
theorem utf8Len_take_mono (chars : List Char) : Monotone fun n => String.utf8Len (chars.take n) :=
  fun _ _ h => String.utf8Len_le_of_prefix (List.take_prefix_take_left h)

/-- The bytes between two byte offsets encode the characters between the offsets. -/
theorem extract_utf8Encode (chars : List Char) {start stop : Nat} (h : start ≤ stop) :
    chars.utf8Encode.extract (String.utf8Len (chars.take start))
        (String.utf8Len (chars.take stop)) = ((chars.take stop).drop start).utf8Encode := by
  have hbefore : (chars.take stop).take start = chars.take start := by
    rw [List.take_take, Nat.min_eq_left h]
  have hparts : chars.utf8Encode = (chars.take start).utf8Encode ++
      (((chars.take stop).drop start).utf8Encode ++ (chars.drop stop).utf8Encode) := by
    rw [← List.utf8Encode_append, ← List.utf8Encode_append, ← hbefore, ← List.append_assoc,
      List.take_append_drop, List.take_append_drop]
  have hstart : String.utf8Len (chars.take start) = (chars.take start).utf8Encode.size + 0 := by
    rw [size_utf8Encode, Nat.add_zero]
  have hstop : String.utf8Len (chars.take stop) = (chars.take start).utf8Encode.size +
      ((chars.take stop).drop start).utf8Encode.size := by
    rw [size_utf8Encode, size_utf8Encode, ← String.utf8Len_append, ← hbefore,
      List.take_append_drop]
  rw [hparts, hstart, hstop, ByteArray.extract_append_size_add,
    ByteArray.extract_append_eq_left rfl]

/-! ## The table of byte offsets -/

/-- The byte offsets of the characters of a list whose first character has the byte offset `bytes`,
and of its end, cut off at the largest offset. -/
def byteOffsetsFrom (bytes : Nat) : List Char → List Nat
  | [] => [min bytes maxOffset]
  | c :: rest => min bytes maxOffset :: byteOffsetsFrom (bytes + c.utf8Size) rest

theorem toList_pushByteOffsets (offsets : Array Nat) (bytes : Nat) (chars : List Char) :
    (pushByteOffsets offsets bytes chars).toList =
      offsets.toList ++ byteOffsetsFrom bytes chars := by
  induction chars generalizing offsets bytes with
  | nil => rw [pushByteOffsets, byteOffsetsFrom, Array.toList_push]
  | cons c rest ih =>
    rw [pushByteOffsets, ih, byteOffsetsFrom, Array.toList_push, List.append_assoc,
      List.singleton_append]

/-- The entry of an offset is the encoded length of what is before. -/
theorem getElem?_byteOffsetsFrom (bytes : Nat) (h : offset ≤ chars.length) :
    (byteOffsetsFrom bytes chars)[offset]? =
      some (min (bytes + String.utf8Len (chars.take offset)) maxOffset) := by
  induction chars generalizing bytes offset with
  | nil =>
    obtain rfl := Nat.eq_zero_of_le_zero h
    rfl
  | cons c rest ih =>
    cases offset with
    | zero => rfl
    | succ offset =>
      rw [byteOffsetsFrom, List.getElem?_cons_succ, ih _ (Nat.le_of_succ_le_succ h),
        List.take_succ_cons, String.utf8Len_cons, Nat.add_assoc, Nat.add_comm c.utf8Size]

/-! ## Views of a snapshot -/

namespace Snapshot

variable {s : Snapshot}

/-- A slice is cut out of the list of all characters. -/
theorem slice_eq_drop_take (s : Snapshot) (span : Span) :
    slice s span = (s.chars.toList.take span.stop).drop span.start := by
  have hlength :
      (slice s span).length = ((s.chars.toList.take span.stop).drop span.start).length := by
    simp [slice, length]
  apply List.ext_getElem hlength
  intro i hi hi'
  have hbound : span.start + i < s.chars.size := by
    simp at hi'
    omega
  have hget : charAt s (span.start + i) = s.chars.getD (span.start + i) sentinel := rfl
  simp [slice, hget, hbound]

/-- What is left of a snapshot is what is left of its characters. -/
theorem suffix_eq_drop (s : Snapshot) (offset : Nat) :
    suffix s offset = s.chars.toList.drop offset := by
  rw [suffix, slice_eq_drop_take, List.take_of_length_le]
  exact Nat.le_of_eq Array.length_toList

/-- To cut a span out of the text is to read its characters one by one. -/
theorem text_eq_ofList_slice (s : Snapshot) (span : Span) :
    s.text span = String.ofList (slice s span) := by
  rw [text, Array.toList_extract, List.extract_eq_drop_take', slice_eq_drop_take]

/-- `span`, cut off at the end of the snapshot. -/
def clamp (s : Snapshot) (span : Span) : Span :=
  let stop := min span.stop s.length
  ⟨min span.start stop, stop⟩

/-- The part of a span that lies behind the end holds no character. -/
theorem text_clamp (s : Snapshot) (span : Span) : s.text (s.clamp span) = s.text span := by
  have hsize : s.chars.toList.length = s.length := Array.length_toList
  have hstop : s.chars.toList.take (min span.stop s.length) = s.chars.toList.take span.stop :=
    List.take_eq_take_min.symm
  have hstart : (s.chars.toList.take span.stop).drop (min span.start (min span.stop s.length)) =
      (s.chars.toList.take span.stop).drop span.start := by
    rw [List.drop_eq_drop_iff, List.length_take, hsize, Nat.min_assoc, Nat.min_self]
  rw [text_eq_ofList_slice, text_eq_ofList_slice, slice_eq_drop_take, slice_eq_drop_take, clamp]
  dsimp only
  rw [hstop, hstart]

/-- The table has an entry for every offset that is looked up, be the text ASCII or not. -/
theorem getElem?_byteTable (s : Snapshot) (offset : Nat) :
    (pushByteOffsets #[] 0 s.chars.toList)[min offset s.length]? =
      some (min (String.utf8Len (s.chars.toList.take (min offset s.length))) maxOffset) := by
  have hle : min offset s.length ≤ s.chars.toList.length := Nat.min_le_right _ _
  rw [← Array.getElem?_toList, toList_pushByteOffsets, List.nil_append,
    getElem?_byteOffsetsFrom 0 hle, Nat.zero_add]

/-- Without a table, each offset is its own byte offset, up to the end. -/
theorem byteOffset_of_isAscii (h : s.chars.toList.all isAscii = true) (offset : Nat) :
    s.byteOffset offset = min offset s.length := by
  rw [byteOffset, s.byteOffsets_eq, byteOffsetsOf, if_pos h]

/-- Offsets of characters are byte offsets in ASCII. -/
theorem utf8Len_take_of_isAscii (h : s.chars.toList.all isAscii = true) (offset : Nat) :
    String.utf8Len (s.chars.toList.take (min offset s.length)) = min offset s.length := by
  have hbefore : (s.chars.toList.take (min offset s.length)).all isAscii = true :=
    List.all_eq_true.mpr fun c hc => List.all_eq_true.mp h c (List.mem_of_mem_take hc)
  rw [utf8Len_of_isAscii hbefore, List.length_take, Array.length_toList]
  exact Nat.min_eq_left (Nat.min_le_right _ _)

/-- With a table or without, the byte offset of an offset is the encoded length of what is before
it, cut off at the largest offset. -/
theorem byteOffset_eq (s : Snapshot) (offset : Nat) :
    s.byteOffset offset =
      min (String.utf8Len (s.chars.toList.take (min offset s.length))) maxOffset := by
  by_cases h : s.chars.toList.all isAscii = true
  · have hsmall : min offset s.length ≤ maxOffset := Nat.le_trans (Nat.min_le_right _ _) s.length_le
    rw [byteOffset_of_isAscii h, utf8Len_take_of_isAscii h, Nat.min_eq_left hsmall]
  · rw [byteOffset, s.byteOffsets_eq, byteOffsetsOf, if_neg h]
    dsimp only
    rw [Array.getD_eq_getD_getElem?, getElem?_byteTable]
    rfl

/-- Further on in the text are later bytes. -/
theorem byteOffset_mono (s : Snapshot) : Monotone s.byteOffset := by
  intro offset offset' h
  rw [byteOffset_eq, byteOffset_eq]
  exact min_le_min_right _ (utf8Len_take_mono _ (min_le_min_right _ h))

theorem toList_chars_ofList (h : chars.length ≤ maxOffset) :
    (ofList chars).chars.toList = chars := by
  rw [chars_ofList h]

theorem suffix_ofList (h : chars.length ≤ maxOffset) (offset : Nat) :
    suffix (ofList chars) offset = chars.drop offset := by
  rw [suffix_eq_drop, toList_chars_ofList h]

theorem toList_chars_ofString {text : String} (h : text.length ≤ maxOffset) :
    (ofString text).chars.toList = text.toList :=
  toList_chars_ofList (by rwa [String.length_toList])

theorem length_ofString {text : String} (h : text.length ≤ maxOffset) :
    (ofString text).length = text.length := by
  rw [length, ← Array.length_toList, toList_chars_ofString h, String.length_toList]

/-- Where the bytes can all be addressed, nothing is cut off. -/
theorem byteOffset_eq_utf8Len (h : String.utf8Len s.chars.toList ≤ maxOffset) (offset : Nat) :
    s.byteOffset offset = String.utf8Len (s.chars.toList.take offset) := by
  have htake : s.chars.toList.take (min offset s.length) = s.chars.toList.take offset :=
    List.take_eq_take_min.symm
  have hsmall : String.utf8Len (s.chars.toList.take offset) ≤ maxOffset :=
    Nat.le_trans (String.utf8Len_le_of_prefix (List.take_prefix _ _)) h
  rw [byteOffset_eq, htake, Nat.min_eq_left hsmall]

/-- The bytes of a span encode its characters. -/
theorem extract_byteRange (h : String.utf8Len s.chars.toList ≤ maxOffset) {span : Span}
    (hle : span.start ≤ span.stop) :
    s.chars.toList.utf8Encode.extract (s.byteRange span).1 (s.byteRange span).2 =
      (s.text span).toUTF8 := by
  rw [byteRange, byteOffset_eq_utf8Len h, byteOffset_eq_utf8Len h, extract_utf8Encode _ hle,
    text_eq_ofList_slice, slice_eq_drop_take, String.toUTF8_eq_toByteArray,
    String.toByteArray_ofList]

/-- **Characters and bytes agree.** The characters of a span are those from its start on and before
its end or that of the text, whether they are cut out or read one by one. The byte offset of an
offset is the encoded length of what is before it, and the table that is made where a text is not
ASCII says the same of every text. Where the bytes can be addressed, those of a span encode its
characters. -/
theorem views_agree (text : String) (h : text.length ≤ maxOffset) :
    let s := ofString text
    let encodedLength := fun offset =>
      (String.ofList (text.toList.take (min offset text.length))).utf8ByteSize
    (∀ span, s.text span =
        String.ofList ((text.toList.take (min span.stop text.length)).drop span.start) ∧
      (∀ position out, (Reader.mk s position).collect span out = out ++ s.text span) ∧
      (s.clamp span).start ≤ (s.clamp span).stop ∧ (s.clamp span).stop ≤ s.chars.size ∧
      s.text (s.clamp span) = s.text span) ∧
    (∀ offset, s.byteOffset offset = min (encodedLength offset) maxOffset ∧
      (text.toList.all isAscii = true → s.byteOffset offset = encodedLength offset) ∧
      (pushByteOffsets #[] 0 text.toList)[min offset text.length]? = some (s.byteOffset offset)) ∧
    Monotone s.byteOffset ∧
    (text.utf8ByteSize ≤ maxOffset → ∀ span : Span, span.start ≤ span.stop →
      (s.byteRange span).1 ≤ (s.byteRange span).2 ∧
      (s.byteRange span).2 ≤ text.utf8ByteSize ∧
      text.toUTF8.extract (s.byteRange span).1 (s.byteRange span).2 = (s.text span).toUTF8) := by
  intro s encodedLength
  have hchars : s.chars.toList = text.toList := toList_chars_ofString h
  have hlength : s.length = text.length := length_ofString h
  have hencoded : ∀ offset, encodedLength offset =
      String.utf8Len (s.chars.toList.take (min offset s.length)) := by
    intro offset
    rw [hchars, hlength, ← String.utf8ByteSize_ofList]
  -- What is said of single spans and offsets is read off one by one, and the bytes of a span come
  -- last, as only they need that all bytes can be addressed.
  refine ⟨fun span => ⟨?_, fun position out => ?_, Nat.min_le_right _ _, Nat.min_le_right _ _,
    s.text_clamp span⟩, fun offset => ⟨?_, fun hascii => ?_, ?_⟩, s.byteOffset_mono, ?_⟩
  · rw [text_eq_ofList_slice, slice_eq_drop_take, hchars, ← String.length_toList,
      ← List.take_eq_take_min]
  · rw [Reader.collect, text_eq_ofList_slice]
  · rw [hencoded, byteOffset_eq]
  · rw [← hchars] at hascii
    rw [hencoded, byteOffset_of_isAscii hascii, utf8Len_take_of_isAscii hascii]
  · rw [← hchars, ← hlength, getElem?_byteTable, byteOffset_eq]
  · intro hbytes span hle
    have hsize : text.utf8ByteSize = String.utf8Len s.chars.toList := by
      rw [hchars, ← String.utf8ByteSize_ofList, String.ofList_toList]
    have hutf8 : text.toUTF8 = s.chars.toList.utf8Encode := by
      rw [hchars, String.toUTF8_eq_toByteArray, String.utf8Encode_toList]
    rw [hsize] at hbytes ⊢
    refine ⟨s.byteOffset_mono hle, ?_, ?_⟩
    · show s.byteOffset span.stop ≤ _
      rw [byteOffset_eq_utf8Len hbytes]
      exact String.utf8Len_le_of_prefix (List.take_prefix _ _)
    · rw [hutf8, extract_byteRange hbytes hle]

/-- The middle of a text whose characters take from one to four bytes. -/
theorem views_agree_mixed :
    let text := "aé€\n😀z"
    let s := ofString text
    text.length ≤ maxOffset ∧ text.utf8ByteSize ≤ maxOffset ∧
      s.text ⟨1, 5⟩ = "é€\n😀" ∧ s.byteRange ⟨1, 5⟩ = (1, 11) ∧
      text.toUTF8.extract 1 11 = (s.text ⟨1, 5⟩).toUTF8 := by
  intro text s
  have hlength : text.length ≤ maxOffset := by decide
  have hbytes : text.utf8ByteSize ≤ maxOffset := by decide
  have hviews := views_agree text hlength
  have htext : s.text ⟨1, 5⟩ = "é€\n😀" := (hviews.1 ⟨1, 5⟩).1.trans (by decide +kernel)
  have hextract := (hviews.2.2.2 hbytes ⟨1, 5⟩ (by decide)).2.2
  have hrange : s.byteRange ⟨1, 5⟩ = (1, 11) := by decide +kernel
  rw [hrange] at hextract
  exact ⟨hlength, hbytes, htext, hrange, hextract⟩

end Snapshot

end OdinSyntax
