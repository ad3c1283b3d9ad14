import LambdaCalc.Text.Lines
import LambdaCalc.Proofs.Tokens

namespace LambdaCalc

/-- The second text comes from the first one when it is put together from lines: a carriage return
in front of a line feed can be missing, and a line feed at the end can be new. -/
inductive Rejoined : List Char → List Char → Prop
  | nil : Rejoined [] []
  | final : Rejoined [] ['\n']
  | crlf {a b : List Char} : Rejoined a b → Rejoined ('\r' :: '\n' :: a) ('\n' :: b)
  | cons {a b : List Char} (c : Char) : Rejoined a b → Rejoined (c :: a) (c :: b)

/-- Both texts are over, or they go on with the same character. -/
inductive Rejoined.Here : List Char → List Char → Prop
  | ended : Here [] []
  | char {a b : List Char} (c : Char) : Rejoined a b → Here (c :: a) (c :: b)

namespace Rejoined

variable {a b : List Char}

theorem append_left (front : List Char) (h : Rejoined a b) :
    Rejoined (front ++ a) (front ++ b) := by
  induction front with
  | nil => exact h
  | cons c front ih => exact .cons c ih

/-- Behind the blanks and comments both texts go on in the same way. -/
theorem skip (h : Rejoined a b) :
    Here (skipBlanks a) (skipBlanks b) ∧ Here (skipComment a) (skipComment b) := by
  have hreturn : Text.isBlank '\r' = true := by decide
  have hfeed : Text.isBlank '\n' = true := by decide
  induction h with
  | nil => exact ⟨.ended, .ended⟩
  | final =>
    simp only [skipBlanks, skipComment, hfeed, if_true]
    exact ⟨.ended, .ended⟩
  | crlf _ ih =>
    have hne : '\r' ≠ '\n' := by decide
    simp only [skipBlanks, skipComment, hreturn, hfeed, if_true, if_neg hne]
    exact ⟨ih.1, ih.1⟩
  | cons c h ih =>
    rw [skipBlanks, skipBlanks, skipComment, skipComment]
    constructor
    · split
      · exact ih.1
      · split
        · exact ih.2
        · exact .char c h
    · split
      · exact ih.1
      · exact ih.2

/-- A run of characters that are no line ends is the same in both texts. -/
theorem run (h : Rejoined a b) {p : Char → Bool} (hreturn : p '\r' = false)
    (hfeed : p '\n' = false) :
    b.takeWhile p = a.takeWhile p ∧ Rejoined (a.dropWhile p) (b.dropWhile p) := by
  induction h with
  | nil => exact ⟨rfl, .nil⟩
  | final => simp [hfeed, final]
  | crlf h _ => simp [hreturn, hfeed, h.crlf]
  | cons c h ih =>
    by_cases hc : p c = true
    · simp [hc, ih]
    · simp [hc, h.cons c]

theorem ofDigits_eq (h : Rejoined a b) (digits : String) :
    Token.ofDigits digits b = Token.ofDigits digits a := by
  cases h <;> rfl

theorem readFrom {isReserved : String → Bool} (h : Rejoined a b) (c : Char) :
    (Token.readFrom isReserved c b).1 = (Token.readFrom isReserved c a).1 ∧
      Rejoined (Token.readFrom isReserved c a).2 (Token.readFrom isReserved c b).2 := by
  obtain ⟨hword, hafter⟩ := h.run (p := isWordChar) (by decide) (by decide)
  obtain ⟨hdigits, hbehind⟩ := h.run (p := Char.isDigit) (by decide) (by decide)
  simp only [Token.readFrom, hword, hdigits, hbehind.ofDigits_eq]
  split
  · exact ⟨rfl, h⟩
  · split
    · exact ⟨rfl, hafter⟩
    · split
      · exact ⟨rfl, hafter⟩
      · split
        · exact ⟨rfl, hbehind⟩
        · split
          · exact ⟨rfl, h⟩
          · exact ⟨rfl, h⟩

/-- Both texts begin with the same token, and the rests of them are the same but for line ends. -/
theorem read {isReserved : String → Bool} (h : Rejoined a b) :
    (Token.read isReserved b).1 = (Token.read isReserved a).1 ∧
      Rejoined (Token.read isReserved a).2 (Token.read isReserved b).2 := by
  have hskip := h.skip.1
  rw [Token.read, Token.read]
  generalize skipBlanks a = a' at hskip ⊢
  generalize skipBlanks b = b' at hskip ⊢
  cases hskip with
  | ended => exact ⟨rfl, .nil⟩
  | char c h => exact h.readFrom c

end Rejoined

namespace Text.Lines

open String (utf8EncodeChar)

/-- The bytes of a text. -/
def encode (text : List Char) : List UInt8 := text.flatMap utf8EncodeChar

theorem toUTF8_eq_encode (text : String) : text.toUTF8.data.toList = encode text.toList := by
  rw [String.toUTF8, ← String.utf8Encode_toList, List.utf8Encode, List.toList_data_toByteArray]
  rfl

theorem fromUTF8?_encode (line : List Char) :
    String.fromUTF8? ⟨(encode line).toArray⟩ = some (String.ofList line) := by
  have hbytes : (⟨(encode line).toArray⟩ : ByteArray) = line.utf8Encode :=
    ByteArray.ext List.data_toByteArray.symm
  rw [hbytes, String.fromUTF8?, dif_pos ByteArray.isValidUTF8_utf8Encode]
  rfl

/-- A byte below 128 stands for a character of its own. -/
theorem toNat_of_mem_utf8EncodeChar {c : Char} {b : UInt8} (h : b ∈ utf8EncodeChar c)
    (hb : b.toNat < 128) : c.toNat = b.toNat := by
  have hc : c.val.toNat = c.toNat := rfl
  -- all bytes of a longer encoding are at least 128
  have hlarge {n : Nat} (hn : 128 ≤ n % 256) : b ≠ UInt8.ofNat n := by
    rintro rfl
    rw [UInt8.toNat_ofNat'] at hb
    omega
  unfold utf8EncodeChar at h
  simp only [hc] at h
  split at h
  · obtain rfl := List.mem_singleton.mp h
    rw [UInt8.toNat_ofNat']
    omega
  · repeat' split at h
    all_goals
      simp only [List.mem_cons, List.not_mem_nil, or_false] at h
      repeat rw [or_iff_right (hlarge (by omega))] at h
      exact absurd h (hlarge (by omega))

theorem notMem_utf8EncodeChar {c d : Char} (hd : d.toNat < 128) (h : c ≠ d) :
    UInt8.ofNat d.toNat ∉ utf8EncodeChar c := by
  have hbyte : (UInt8.ofNat d.toNat).toNat = d.toNat := by
    rw [UInt8.toNat_ofNat']
    omega
  intro hmem
  have hc := toNat_of_mem_utf8EncodeChar hmem (by rwa [hbyte])
  exact h (Char.toNat_inj.mp (hc.trans hbyte))

theorem split_feed (line bytes : List UInt8) :
    split line (10 :: bytes) = finished line :: split [] bytes := rfl

theorem split_of_ne {b : UInt8} (h : b ≠ 10) (line bytes : List UInt8) :
    split line (b :: bytes) = split (b :: line) bytes := by
  rw [split]
  exact h

/-- Bytes that end no line are added to the current one. -/
theorem split_append {front : List UInt8} (h : 10 ∉ front) (line rest : List UInt8) :
    split line (front ++ rest) = split (front.reverse ++ line) rest := by
  induction front generalizing line with
  | nil => rfl
  | cons b front ih =>
    rw [List.mem_cons, not_or] at h
    rw [List.cons_append, split_of_ne (Ne.symm h.1), ih h.2, List.reverse_cons, List.append_assoc]
    rfl

theorem finished_of_ne {b : UInt8} (h : b ≠ 13) (line : List UInt8) :
    finished (b :: line) = (b :: line).reverse := by
  unfold finished
  split
  · next he =>
    cases he
    exact absurd rfl h
  · rfl

/-- A finished line loses a carriage return at its end, and nothing else. -/
theorem finished_encode (line : List Char) :
    ∃ kept, finished (encode line).reverse = encode kept ∧
      (line = kept ∨ line = kept ++ ['\r']) := by
  rcases List.eq_nil_or_concat line with rfl | ⟨front, c, rfl⟩
  · exact ⟨[], rfl, .inl rfl⟩
  · rw [List.concat_eq_append]
    have hbytes : (encode (front ++ [c])).reverse =
        (utf8EncodeChar c).reverse ++ (encode front).reverse := by
      simp [encode]
    by_cases hc : c = '\r'
    · subst hc
      refine ⟨front, ?_, .inr rfl⟩
      rw [hbytes]
      exact List.reverse_reverse _
    · refine ⟨front ++ [c], ?_, .inl rfl⟩
      cases hlast : (utf8EncodeChar c).reverse with
      | nil => exact absurd (List.reverse_eq_nil_iff.mp hlast) String.utf8EncodeChar_ne_nil
      | cons b bytes =>
        have hmem : b ∈ utf8EncodeChar c := by
          rw [← List.mem_reverse, hlast]
          exact List.mem_cons_self
        have hne : b ≠ 13 := by
          rintro rfl
          exact notMem_utf8EncodeChar (d := '\r') (by decide) hc hmem
        rw [hbytes, hlast, List.cons_append, finished_of_ne hne, ← List.cons_append, ← hlast,
          ← hbytes, List.reverse_reverse]

theorem decode_encode_cons (line : List Char) (lines : List (List UInt8)) :
    decode (encode line :: lines) =
      (String.ofList line :: (decode lines).1, (decode lines).2) := by
  rw [decode, fromUTF8?_encode]

theorem join_cons (line : List Char) (lines : List String) :
    join (String.ofList line :: lines) = line ++ '\n' :: join lines := by
  simp [join]

/-- The lines of a text's bytes, when `line` was read of the current one, are all of them text, and
make up the text again. -/
theorem decode_split (line text : List Char) :
    (decode (split (encode line).reverse (encode text))).2 = true ∧
      Rejoined (line ++ text) (join (decode (split (encode line).reverse (encode text))).1) := by
  -- the unfinished line is generalized: every character but a line feed joins it
  induction text generalizing line with
  | nil =>
    rw [List.append_nil]
    cases line with
    | nil => exact ⟨rfl, .nil⟩
    | cons d line =>
      have hsplit : split (encode (d :: line)).reverse (encode []) = [encode (d :: line)] := by
        have hne : encode (d :: line) ≠ [] :=
          List.append_ne_nil_of_left_ne_nil String.utf8EncodeChar_ne_nil _
        change (if (encode (d :: line)).reverse.isEmpty then [] else _) = _
        rw [if_neg (by simpa using hne), List.reverse_reverse]
      rw [hsplit, decode_encode_cons, join_cons]
      refine ⟨rfl, ?_⟩
      have hfinal := Rejoined.final.append_left (d :: line)
      rwa [List.append_nil] at hfinal
  | cons c text ih =>
    by_cases hc : c = '\n'
    · subst hc
      obtain ⟨hall, hrest⟩ := ih []
      obtain ⟨kept, hkept, hline⟩ := finished_encode line
      have hsplit : split (encode line).reverse (encode ('\n' :: text)) =
          encode kept :: split [] (encode text) := by
        rw [← hkept]
        rfl
      rw [hsplit, decode_encode_cons, join_cons]
      refine ⟨hall, ?_⟩
      rcases hline with rfl | rfl
      · exact .append_left line (.cons '\n' hrest)
      · rw [List.append_assoc]
        exact .append_left kept (.crlf hrest)
    · have hstep : split (encode line).reverse (encode (c :: text)) =
          split (encode (line ++ [c])).reverse (encode text) := by
        have hfeed : 10 ∉ utf8EncodeChar c := notMem_utf8EncodeChar (d := '\n') (by decide) hc
        have hencode : encode (line ++ [c]) = encode line ++ utf8EncodeChar c := by
          simp [encode]
        rw [hencode, List.reverse_append]
        exact split_append hfeed _ _
      have hline : line ++ c :: text = line ++ [c] ++ text := by simp
      rw [hstep, hline]
      exact ih (line ++ [c])

/-- Reading a text line by line loses nothing but line ends. -/
theorem rejoined_read_encode (text : List Char) :
    (read (encode text)).2 = true ∧ Rejoined text (join (read (encode text)).1) :=
  decode_split [] text

theorem rejoined_read (text : String) :
    (Lines.read text.toUTF8.data.toList).2 = true ∧
      Rejoined text.toList (join (Lines.read text.toUTF8.data.toList).1) := by
  rw [toUTF8_eq_encode]
  exact rejoined_read_encode text.toList

end Text.Lines

end LambdaCalc
