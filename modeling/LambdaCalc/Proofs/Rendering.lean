import LambdaCalc.Proofs.Reserving
import LambdaCalc.Proofs.Respelling
import LambdaCalc.Proofs.Recovery

namespace LambdaCalc

/-- What may stand between two tokens: blanks, and comments with the ends of their lines. -/
inductive Gap : List Char → Prop
  | nil : Gap []
  | blank {c : Char} {gap : List Char} : Text.isBlank c = true → Gap gap → Gap (c :: gap)
  | comment {line gap : List Char} : '\n' ∉ line → Gap gap → Gap ('#' :: (line ++ '\n' :: gap))

namespace Gap

variable {gap rest : List Char}

/-- A gap is passed over, whatever follows it. -/
theorem skipBlanks_append (h : Gap gap) (rest : List Char) :
    skipBlanks (gap ++ rest) = skipBlanks rest := by
  induction h with
  | nil => rfl
  | blank hc _ ih => rw [List.cons_append, skipBlanks, if_pos hc, ih]
  | @comment line gap hline _ ih =>
    have hhash : Text.isBlank '#' = false := by decide
    have hfeed : afterLine ('\n' :: (gap ++ rest)) = gap ++ rest := rfl
    rw [List.cons_append, List.append_assoc, List.cons_append, skipBlanks,
      if_neg (by simp [hhash]), if_pos rfl, skipComment_eq, afterLine_append hline, hfeed, ih]

theorem read_append {isReserved : String → Bool} (h : Gap gap) (rest : List Char) :
    Token.read isReserved (gap ++ rest) = Token.read isReserved rest := by
  rw [Token.read, h.skipBlanks_append, ← Token.read]

/-- A gap that is not empty ends a word. -/
theorem endsWord_append (h : Gap gap) (hne : gap ≠ []) (rest : List Char) :
    EndsWord (gap ++ rest) := by
  cases h with
  | nil => exact absurd rfl hne
  | @blank c _ hc _ =>
    have hword : isWordChar c = false := by
      by_contra hword
      rw [Bool.not_eq_false] at hword
      rw [Text.isBlank_eq_false_of_isWordChar hword] at hc
      cases hc
    simpa [EndsWord] using hword
  | comment _ _ => simp [EndsWord, isWordChar]

end Gap

/-- The words that are read as names. -/
def isName (word : String) : Bool :=
  match word.toList with
  | [] => false
  | c :: cs => c.isUpper && cs.all isWordChar

namespace Token

variable {isReserved : String → Bool} {token : Token} {rest : List Char}

/-- The tokens that are written in the language. What is reserved is no part of it. -/
def Written : Token → Prop
  | identifier word => isIdentifier word = true
  | name word => isName word = true
  | number digits => Text.Decimal.isCount digits.toList = true
  | truth _ => True
  | operator _ => True
  | reserved _ => False
  | endOfInput => False

/-- The tokens that are made of letters, digits and underscores. -/
def isWord : Token → Bool
  | identifier _ | name _ | number _ | truth _ => true
  | _ => false

theorem read_name {c : Char} {cs : List Char} (hc : c.isUpper = true)
    (hcs : ∀ d ∈ cs, isWordChar d = true) (hrest : EndsWord rest) :
    read (fun _ => false) (c :: (cs ++ rest)) = (.ok (name (String.ofList (c :: cs))), rest) := by
  have hword := isWordChar_of_isUpper hc
  have hlower : ¬c.isLower = true := by
    intro h
    have := toNat_of_isLower h
    have := toNat_of_isUpper hc
    omega
  obtain ⟨htake, hdrop⟩ := run_exact hcs hrest
  rw [read_cons (Text.isBlank_eq_false_of_isWordChar hword) (ne_hash_of_isWordChar hword)]
  simp only [readFrom, hlower, hc, htake, hdrop, Bool.false_eq_true, if_false, if_true]

theorem read_digits {c : Char} {cs : List Char} (hc : c.isDigit = true)
    (hcs : ∀ d ∈ cs, d.isDigit = true) (hrest : EndsWord rest) :
    read (fun _ => false) (c :: (cs ++ rest)) =
      (.ok (number (String.ofList (c :: cs))), rest) := by
  have hword := isWordChar_of_isDigit hc
  have hrange := toNat_of_isDigit hc
  have hlower : ¬c.isLower = true := by
    intro h
    have := toNat_of_isLower h
    omega
  have hupper : ¬c.isUpper = true := by
    intro h
    have := toNat_of_isUpper h
    omega
  obtain ⟨htake, hdrop⟩ := run_exact hcs hrest.not_isDigit
  rw [read_cons (Text.isBlank_eq_false_of_isWordChar hword) (ne_hash_of_isWordChar hword)]
  simp only [readFrom, hlower, hupper, hc, htake, hdrop, ofDigits_of_endsWord _ hrest,
    Bool.false_eq_true, if_false, if_true]

/-- A token that is written down is read back, unless what follows goes on with its word. -/
theorem read_text (h : token.Written) (hrest : token.isWord = true → EndsWord rest) :
    read (fun _ => false) (token.text.toList ++ rest) = (.ok token, rest) := by
  cases token with
  | identifier word =>
    obtain ⟨c, cs, hlist, hc, hcs, hof⟩ := exists_of_isIdentifier h
    change read (fun _ => false) (word.toList ++ rest) = _
    rw [hlist, List.cons_append, read_word hc hcs (hrest rfl) rfl, ← hlist,
      String.ofList_toList, ofLowercase, if_neg Bool.false_ne_true, hof]
  | name word =>
    change isName word = true at h
    change read (fun _ => false) (word.toList ++ rest) = _
    rw [isName] at h
    split at h
    · cases h
    · next c cs hlist =>
      simp only [Bool.and_eq_true, List.all_eq_true] at h
      rw [hlist, List.cons_append, read_name h.1 h.2 (hrest rfl), ← hlist, String.ofList_toList]
  | number digits =>
    change Text.Decimal.isCount digits.toList = true at h
    change read (fun _ => false) (digits.toList ++ rest) = _
    cases hlist : digits.toList with
    | nil =>
      rw [hlist] at h
      cases h
    | cons c cs =>
      simp only [hlist, Text.Decimal.isCount, Bool.and_eq_true, List.all_eq_true,
        List.forall_mem_cons] at h
      rw [List.cons_append, read_digits h.2.1 h.2.2 (hrest rfl), ← hlist, String.ofList_toList]
  | truth value =>
    cases value
    · have hword : ['a', 'l', 's', 'e'].all isWordChar = true := by decide
      exact read_word (by decide) (List.all_eq_true.mp hword) (hrest rfl) rfl
    · have hword : ['r', 'u', 'e'].all isWordChar = true := by decide
      exact read_word (by decide) (List.all_eq_true.mp hword) (hrest rfl) rfl
  | operator o =>
    have htext : (operator o).text.toList = [o.char] := by simp [text]
    rw [htext]
    exact read_operator o rfl rest
  | reserved word => cases h
  | endOfInput => cases h

end Token

/-- A token behind the gap in front of it. -/
structure Piece where
  gap : List Char
  token : Token
  isGap : Gap gap
  written : token.Written

namespace Piece

/-- The text of these tokens, with a gap behind the last one. -/
def render : List Piece → List Char → List Char
  | [], last => last
  | p :: pieces, last => p.gap ++ (p.token.text.toList ++ render pieces last)

/-- Between two neighbouring words there is a gap. -/
def Separated (pieces : List Piece) : Prop :=
  pieces.IsChain fun p q => p.token.isWord = true → q.token.isWord = true → q.gap ≠ []

variable {p : Piece} {pieces : List Piece} {last : List Char}

/-- What is written behind a word does not go on with it. -/
theorem endsWord_render (h : Separated (p :: pieces)) (hlast : Gap last)
    (hword : p.token.isWord = true) : EndsWord (render pieces last) := by
  cases pieces with
  | nil =>
    cases last with
    | nil => simp [EndsWord, render]
    | cons c last =>
      have hends := hlast.endsWord_append (by simp) []
      rwa [List.append_nil] at hends
  | cons q pieces =>
    have hq := (List.isChain_cons_cons.mp h).1 hword
    by_cases hgap : q.gap = []
    · obtain ⟨gap, token, isGap, written⟩ := q
      cases token with
      | operator o =>
        simp only at hgap
        have hchar : isWordChar o.char = false := by cases o <;> decide
        simp [render, hgap, EndsWord, Token.text, hchar]
      | reserved word => cases written
      | endOfInput => cases written
      | _ => exact absurd hgap (hq rfl)
    · exact q.isGap.endsWord_append hgap _

theorem tokenized_render (h : Separated pieces) (hlast : Gap last) :
    Tokenized (fun _ => false) (render pieces last) (pieces.map token) := by
  induction pieces with
  | nil =>
    have hread : Token.read (fun _ => false) (last ++ []) = _ := hlast.read_append []
    rw [List.append_nil] at hread
    exact .done hread
  | cons p pieces ih =>
    have hread := Token.read_text p.written fun hword => endsWord_render h hlast hword
    rw [← p.isGap.read_append] at hread
    have hlater : Separated pieces := by
      cases pieces with
      | nil => exact .nil
      | cons q pieces => exact (List.isChain_cons_cons.mp h).2
    refine .next hread ?_ (ih hlater)
    intro hend
    have hwritten := p.written
    rw [hend] at hwritten
    exact hwritten

end Piece

namespace Source

variable {s : Source} {tokens : List Token}

theorem answers_of_end (h : skipBlanks s.input = []) (n : Nat) :
    (s.answers n).map Prod.fst = List.replicate n (.ok .endOfInput) := by
  induction n generalizing s with
  | zero => rfl
  | succ n ih =>
    have hread : Token.read s.isReserved s.input = (.ok .endOfInput, []) := by
      rw [Token.read, h]
    have hfound : s.next.1 = .ok .endOfInput := congrArg Prod.fst hread
    have hrest : s.next.2.input = [] := congrArg Prod.snd hread
    have hlater := ih (s := s.next.2) (by rw [hrest, skipBlanks])
    rw [answers, List.map_cons, hfound, hlater, List.replicate_succ]

/-- A text that is cut into tokens hands out these, and then nothing but its end. -/
theorem answers_of_tokenized (h : Tokenized s.isReserved s.input tokens) (n : Nat) :
    (s.answers (tokens.length + n)).map Prod.fst =
      tokens.map .ok ++ List.replicate n (.ok .endOfInput) := by
  induction tokens generalizing s with
  | nil =>
    obtain ⟨rest, hread⟩ := Tokenized.nil_iff.mp h
    have hend := Token.skipBlanks_of_read_endOfInput (congrArg Prod.fst hread)
    rw [List.length_nil, Nat.zero_add]
    exact answers_of_end hend n
  | cons token tokens ih =>
    obtain ⟨rest, hread, -, hrest⟩ := Tokenized.cons_iff.mp h
    have hfound : s.next.1 = .ok token := congrArg Prod.fst hread
    have hinput : s.next.2.input = rest := congrArg Prod.snd hread
    have hlater := ih (s := s.next.2) (by rw [hinput]; exact hrest)
    rw [List.length_cons, Nat.add_right_comm, answers, List.map_cons, hfound, hlater]
    rfl

/-- Tokens that are written down, with a gap between words at least, are read back one by one, and
behind them the end of the text is read forever. -/
theorem answers_render {pieces : List Piece} {last : List Char} (hreserved : s.reserved = [])
    (hinput : s.input = Piece.render pieces last) (hpieces : Piece.Separated pieces)
    (hlast : Gap last) (n : Nat) :
    (s.answers (pieces.length + n)).map Prod.fst =
      pieces.map (fun p => .ok p.token) ++ List.replicate n (.ok .endOfInput) := by
  have hfree : s.isReserved = fun _ => false := by
    funext word
    rw [isReserved, hreserved]
    rfl
  have htokenized := Piece.tokenized_render hpieces hlast
  rw [← hfree, ← hinput] at htokenized
  have hanswers := answers_of_tokenized htokenized n
  rwa [List.length_map, List.map_map] at hanswers

/-- A text in which a comment with words of its own keeps two words apart. -/
def spelledOut : List Piece :=
  [⟨[], .operator .openBracket, .nil, trivial⟩,
    ⟨[], .name "And_1", .nil, rfl⟩,
    ⟨'#' :: ("x true'".toList ++ '\n' :: ['\u00A0']), .truth true,
      .comment (by decide) (.blank (by decide) .nil), trivial⟩,
    ⟨[], .operator .arrow, .nil, trivial⟩,
    ⟨[], .number "007", .nil, rfl⟩,
    ⟨[' '], .identifier "trueX", .blank (by decide) .nil, rfl⟩]

theorem answers_render_spelledOut :
    (answers 8 { input := "(And_1#x true'\n\u00A0true>007 trueX#\n".toList }).map Prod.fst =
      spelledOut.map (fun p => .ok p.token) ++ [.ok .endOfInput, .ok .endOfInput] := by
  have hseparated : Piece.Separated spelledOut := by
    simp [Piece.Separated, spelledOut, Token.isWord]
  have hline : '\n' ∉ "".toList := by decide
  have hlast : Gap "#\n".toList := .comment hline .nil
  exact answers_render rfl (by decide) hseparated hlast 2

end Source

end LambdaCalc
