import LambdaCalc.Proofs.Tokens

namespace LambdaCalc

/-- The lexeme that begins with `c`, and what is left after it. Words and runs of digits are as long
as possible, and every other lexeme is one character. -/
def lexeme (c : Char) (cs : List Char) : String × List Char :=
  if c.isAlpha then (String.ofList (c :: cs.takeWhile isWordChar), cs.dropWhile isWordChar)
  else if c.isDigit then
    (String.ofList (c :: cs.takeWhile Char.isDigit), cs.dropWhile Char.isDigit)
  else (c.toString, cs)

/-- The text has this lexeme outside of blanks and comments. -/
inductive HasLexeme : List Char → String → Prop
  | here {input cs : List Char} {c : Char} :
      skipBlanks input = c :: cs → HasLexeme input (lexeme c cs).1
  | later {input cs : List Char} {c : Char} {word : String} :
      skipBlanks input = c :: cs → HasLexeme (lexeme c cs).2 word → HasLexeme input word

theorem hasLexeme_iff {input cs : List Char} {c : Char} {word : String}
    (h : skipBlanks input = c :: cs) :
    HasLexeme input word ↔ word = (lexeme c cs).1 ∨ HasLexeme (lexeme c cs).2 word := by
  constructor
  · intro hl
    cases hl with
    | here h' =>
      cases h.symm.trans h'
      exact .inl rfl
    | later h' hl =>
      cases h.symm.trans h'
      exact .inr hl
  · rintro (rfl | hl)
    · exact .here h
    · exact .later h hl

theorem not_hasLexeme {input : List Char} {word : String} (h : skipBlanks input = []) :
    ¬ HasLexeme input word := by
  intro hl
  cases hl with
  | here h' => cases h.symm.trans h'
  | later h' _ => cases h.symm.trans h'

theorem lexeme_of_isLower {c : Char} (h : c.isLower = true) (cs : List Char) :
    lexeme c cs =
      (String.ofList (c :: cs.takeWhile isWordChar), cs.dropWhile isWordChar) := by
  have halpha : c.isAlpha = true := Bool.or_eq_true_iff.mpr (.inr h)
  rw [lexeme, if_pos halpha]

/-- Behind a lexeme of one character the rest of the text is left. -/
theorem lexeme_of_eq_toString {c : Char} {cs : List Char} (h : (lexeme c cs).1 = c.toString) :
    (lexeme c cs).2 = cs := by
  have hrun {p : Char → Bool} (hp : String.ofList (c :: cs.takeWhile p) = c.toString) :
      cs.dropWhile p = cs := by
    have hnil : cs.takeWhile p = [] := by simpa using congrArg String.toList hp
    have hboth := @List.takeWhile_append_dropWhile _ p cs
    rwa [hnil, List.nil_append] at hboth
  revert h
  unfold lexeme
  split
  · exact hrun
  · split
    · exact hrun
    · exact fun _ => rfl

theorem head?_lexeme (c : Char) (cs : List Char) : (lexeme c cs).1.toList.head? = some c := by
  unfold lexeme
  split
  · simp
  · split <;> simp

/-- Where a reader does not cut up a lexeme, it goes on behind it. -/
theorem Token.readFrom_rest {isReserved : String → Bool} {c : Char} {cs : List Char}
    (h : isReserved c.toString = true → (lexeme c cs).1 = c.toString) :
    (readFrom isReserved c cs).2 = (lexeme c cs).2 := by
  unfold readFrom
  split
  · next hchar => exact (lexeme_of_eq_toString (h hchar)).symm
  · split
    · next hlower => rw [lexeme_of_isLower hlower]
    · split
      · next hupper =>
        have halpha : c.isAlpha = true := Bool.or_eq_true_iff.mpr (.inl hupper)
        rw [lexeme, if_pos halpha]
      · next hlower hupper =>
        have halpha : ¬c.isAlpha = true := fun h =>
          (Bool.or_eq_true_iff.mp h).elim hupper hlower
        rw [lexeme, if_neg halpha]
        split
        · rfl
        · split <;> rfl

/-- A reader looks up the first character of a token, and then a whole lowercase word. -/
theorem Token.readFrom_congr {isReserved isReserved' : String → Bool} {c : Char} {cs : List Char}
    (hchar : isReserved' c.toString = isReserved c.toString)
    (hword : isReserved c.toString = false → c.isLower = true →
      isReserved' (lexeme c cs).1 = isReserved (lexeme c cs).1) :
    readFrom isReserved' c cs = readFrom isReserved c cs := by
  unfold readFrom
  rw [hchar]
  split
  · rfl
  · next hfree =>
    split
    · next hlower =>
      have hsame := hword (by simpa using hfree) hlower
      rw [lexeme_of_isLower hlower] at hsame
      rw [ofLowercase, ofLowercase, hsame]
    · rfl

theorem Token.ofLowercase_eq_reserved_iff {isReserved : String → Bool} {whole word : String} :
    ofLowercase isReserved whole = reserved word ↔ isReserved word = true ∧ word = whole := by
  unfold ofLowercase
  split
  · next hwhole =>
    rw [reserved.injEq]
    constructor
    · rintro rfl
      exact ⟨hwhole, rfl⟩
    · exact fun h => h.2.symm
  · next hwhole =>
    constructor
    · intro h
      unfold ofWord at h
      repeat' split at h
      all_goals cases h
    · rintro ⟨hword, rfl⟩
      exact absurd hword hwhole

/-- What a reader reports as reserved: the first character of a token, or else a lowercase word. -/
theorem Token.readFrom_eq_reserved_iff {isReserved : String → Bool} {c : Char} {cs : List Char}
    {word : String} : (readFrom isReserved c cs).1 = .ok (reserved word) ↔
      isReserved word = true ∧ (word = c.toString ∨
        isReserved c.toString = false ∧ c.isLower = true ∧ word = (lexeme c cs).1) := by
  by_cases hchar : isReserved c.toString = true
  · have hread : (readFrom isReserved c cs).1 = .ok (reserved c.toString) := by
      rw [readFrom, if_pos hchar]
    rw [hread, Except.ok.injEq, reserved.injEq]
    constructor
    · rintro rfl
      exact ⟨hchar, .inl rfl⟩
    · rintro ⟨-, rfl | ⟨hfree, -, -⟩⟩
      · rfl
      · exact absurd (hfree.symm.trans hchar) Bool.false_ne_true
  · have hfree : isReserved c.toString = false := by simpa using hchar
    have hne : isReserved word = true → word ≠ c.toString := by
      rintro hword rfl
      exact hchar hword
    rw [readFrom, if_neg hchar]
    split
    · next hlower =>
      rw [lexeme_of_isLower hlower, Except.ok.injEq, ofLowercase_eq_reserved_iff]
      refine and_congr_right fun hword => ?_
      simp only [hne hword, hfree, hlower, true_and, false_or]
    · next hlower =>
      constructor
      · intro h
        unfold ofDigits at h
        repeat' split at h
        all_goals cases h
      · rintro ⟨hword, hc | ⟨-, hc, -⟩⟩
        · exact absurd hc (hne hword)
        · exact absurd hc hlower

namespace Source

variable {word signal : String} {s s' : Source}

/-- The first `n` answers of a source that is read token by token, each with the text that is left
then and the signals raised so far. -/
def answers : Nat → Source → List (Except Error Token × List Char × List String)
  | 0, _ => []
  | n + 1, s => (s.next.1, s.next.2.input, s.next.2.raised) :: answers n s.next.2

/-- The reader begins a token with the word: with its only character, or with the whole of a
lowercase word whose first letter is not reserved. -/
inductive Meets (word : String) : Source → Prop
  | here {s : Source} {c : Char} {cs : List Char} :
      skipBlanks s.input = c :: cs →
      (word = c.toString ∨
        s.isReserved c.toString = false ∧ c.isLower = true ∧ word = (lexeme c cs).1) →
      Meets word s
  | later {s : Source} : Meets word s.next.2 → Meets word s

/-- Two sources that differ in one reserved word at most. -/
structure Beside (word : String) (s s' : Source) : Prop where
  input : s'.input = s.input
  raised : s'.raised = s.raised
  lookup : ∀ other, other ≠ word → s'.reserved.lookup other = s.reserved.lookup other

theorem lookup_filter_ne {other : String} (h : other ≠ word) (reserved : List (String × String)) :
    (reserved.filter (·.1 != word)).lookup other = reserved.lookup other := by
  induction reserved with
  | nil => rfl
  | cons p reserved ih =>
    obtain ⟨first, signal⟩ := p
    by_cases hp : first = word
    · have hother : (other == word) = false := by simpa using h
      simp [List.lookup_cons, hp, hother, ih]
    · simp [List.lookup_cons, hp, ih]

theorem beside_of_reserve (h : s.reserve word signal = .ok s') :
    Beside word s s' ∧ s'.isReserved word = true := by
  unfold reserve at h
  split at h
  · cases h
    refine ⟨⟨rfl, rfl, fun other hne => ?_⟩, ?_⟩
    · have hother : (other == word) = false := by simpa using hne
      simp [List.lookup_cons, hother, lookup_filter_ne hne]
    · simp [isReserved]
  · cases h

/-- A reserved word is read only where it is met. -/
theorem meets_of_next {other : String} (h : s.next.1 = .ok (.reserved other)) : s.Meets other := by
  have hread : (Token.read s.isReserved s.input).1 = .ok (.reserved other) := h
  rw [Token.read] at hread
  split at hread
  · cases hread
  · next c cs hs => exact .here hs (Token.readFrom_eq_reserved_iff.mp hread).2

namespace Beside

theorem isReserved (h : Beside word s s') {other : String} (hne : other ≠ word) :
    s'.isReserved other = s.isReserved other := by
  rw [Source.isReserved, Source.isReserved, h.lookup other hne]

/-- Where the word is not met, both sources read the same, and are beside each other again. -/
theorem next (h : Beside word s s') (hm : ¬ s.Meets word) :
    s'.next.1 = s.next.1 ∧ Beside word s.next.2 s'.next.2 := by
  have hread : Token.read s'.isReserved s'.input = Token.read s.isReserved s.input := by
    rw [h.input, Token.read, Token.read]
    split
    · rfl
    · next c cs hs =>
      have hchar : c.toString ≠ word := fun he => hm (.here hs (.inl he.symm))
      refine Token.readFrom_congr (h.isReserved hchar) fun hfree hlower => ?_
      exact h.isReserved fun he => hm (.here hs (.inr ⟨hfree, hlower, he.symm⟩))
  have hfound : s'.next.1 = s.next.1 := by rw [Source.next, Source.next, hread]
  have hrest : s'.next.2.input = s.next.2.input := by rw [Source.next, Source.next, hread]
  have hsignals : s'.signals s.next.1 = s.signals s.next.1 := by
    unfold signals
    split
    · next other hother =>
      rw [h.lookup other]
      rintro rfl
      exact hm (meets_of_next hother)
    · rfl
  refine ⟨hfound, hrest, ?_, h.lookup⟩
  change s'.raised ++ s'.signals s'.next.1 = s.raised ++ s.signals s.next.1
  rw [h.raised, hfound, hsignals]

theorem answers_eq (h : Beside word s s') (hm : ¬ s.Meets word) (n : Nat) :
    s'.answers n = s.answers n := by
  induction n generalizing s s' with
  | zero => rfl
  | succ n ih =>
    obtain ⟨hfound, hnext⟩ := h.next hm
    rw [answers, answers, hfound, hnext.input, hnext.raised, ih hnext fun hl => hm (.later hl)]

/-- Where the word is met, it is read as reserved by the one source and not by the other. -/
theorem exists_answers_ne (h : Beside word s s') (hs : s.isReserved word = false)
    (hs' : s'.isReserved word = true) (hm : s.Meets word) :
    ∃ n, s'.answers n ≠ s.answers n := by
  induction hm generalizing s' with
  | @here s c cs hskip hword =>
    refine ⟨1, fun he => ?_⟩
    have hfound : s'.next.1 = s.next.1 := by
      simp only [answers, List.cons.injEq, Prod.mk.injEq] at he
      exact he.1.1
    have hreserved : s'.next.1 = .ok (.reserved word) := by
      have hread : s'.next.1 = (Token.readFrom s'.isReserved c cs).1 := by
        rw [Source.next, Token.read, h.input, hskip]
      rw [hread, Token.readFrom_eq_reserved_iff]
      by_cases hchar : word = c.toString
      · exact ⟨hs', .inl hchar⟩
      · obtain ⟨hfree, hlexeme⟩ := hword.resolve_left hchar
        exact ⟨hs', .inr ⟨(h.isReserved (Ne.symm hchar)).trans hfree, hlexeme⟩⟩
    have hhonest := Token.honest_read s.isReserved s.input
    rw [show (Token.read s.isReserved s.input).1 = _ from hfound.symm.trans hreserved] at hhonest
    exact Bool.false_ne_true (hs.symm.trans hhonest)
  | @later s _ ih =>
    by_cases hone : s'.answers 1 = s.answers 1
    · simp only [answers, List.cons.injEq, Prod.mk.injEq] at hone
      obtain ⟨hfound, hrest, hraised⟩ := hone.1
      obtain ⟨n, hn⟩ := ih ⟨hrest, hraised, h.lookup⟩ hs hs'
      refine ⟨n + 1, fun he => hn ?_⟩
      simp only [answers, List.cons.injEq] at he
      exact he.2
    · exact ⟨1, hone⟩

end Beside

theorem Meets.skipBlanks_ne_nil (h : s.Meets word) : skipBlanks s.input ≠ [] := by
  induction h with
  | here hskip _ => simp [hskip]
  | @later s _ ih =>
    intro hskip
    have hrest : s.next.2.input = [] := by rw [input_next, Token.read, hskip]
    exact ih (by rw [hrest, skipBlanks])

/-- A word that is met is a lexeme, if no reserved character begins a longer one. -/
theorem Meets.hasLexeme (h : s.Meets word)
    (hwhole : ∀ w, HasLexeme s.input w → ∀ c : Char, w.toList.head? = some c →
      c.toString = word ∨ s.isReserved c.toString = true → w = c.toString) :
    HasLexeme s.input word := by
  induction h with
  | @here s c cs hskip hword =>
    rcases hword with rfl | ⟨-, -, rfl⟩
    · have hone := hwhole _ (.here hskip) c (head?_lexeme c cs) (.inl rfl)
      exact hone ▸ .here hskip
    · exact .here hskip
  | @later s h ih =>
    cases hskip : skipBlanks s.input with
    | nil =>
      have hrest : s.next.2.input = [] := by rw [input_next, Token.read, hskip]
      exact absurd (by rw [hrest, skipBlanks]) h.skipBlanks_ne_nil
    | cons c cs =>
      have hrest : s.next.2.input = (lexeme c cs).2 := by
        rw [input_next, Token.read, hskip]
        exact Token.readFrom_rest fun hchar =>
          hwhole _ (.here hskip) c (head?_lexeme c cs) (.inr hchar)
      rw [hrest] at ih
      exact .later hskip (ih fun w hw => hwhole w (.later hskip hw))

/-- A further reserved word disturbs the reader exactly when the reader meets it. So it disturbs no
text of which it is no lexeme, as long as no reserved character begins a longer lexeme. -/
theorem answers_of_reserve (h : s.reserve word signal = .ok s') :
    (s.isReserved word = false → ((∀ n, s'.answers n = s.answers n) ↔ ¬ s.Meets word)) ∧
      ((∀ w, HasLexeme s.input w → w ≠ word) →
        (∀ w, HasLexeme s.input w → ∀ c : Char, w.toList.head? = some c →
          s'.isReserved c.toString = true → w = c.toString) →
        ∀ n, s'.answers n = s.answers n) := by
  obtain ⟨hbeside, hreserved⟩ := beside_of_reserve h
  constructor
  · intro hnew
    constructor
    · intro hall hm
      obtain ⟨n, hn⟩ := hbeside.exists_answers_ne hnew hreserved hm
      exact hn (hall n)
    · exact hbeside.answers_eq
  · intro hne hwhole
    refine hbeside.answers_eq fun hm => hne word ?_ rfl
    refine hm.hasLexeme fun w hw c hc hchar => hwhole w hw c hc ?_
    by_cases hword : c.toString = word
    · rw [hword, hreserved]
    · rw [hbeside.isReserved hword]
      exact hchar.resolve_left hword

/-- A text in which a word stands only inside of a longer one and in a comment. -/
def exitsText : Source where
  input := "exits ? # exit".toList
  reserved := [("?", "help")]

theorem hasLexeme_exitsText (w : String) :
    HasLexeme exitsText.input w ↔ w = "exits" ∨ w = "?" := by
  have hfirst : skipBlanks exitsText.input = 'e' :: "xits ? # exit".toList := by decide
  have hlast : skipBlanks (lexeme 'e' "xits ? # exit".toList).2 = '?' :: " # exit".toList := by
    decide
  have hcomment : skipBlanks (lexeme '?' " # exit".toList).2 = [] := by decide
  have hexits : (lexeme 'e' "xits ? # exit".toList).1 = "exits" := by decide
  have hhelp : (lexeme '?' " # exit".toList).1 = "?" := by decide
  rw [hasLexeme_iff hfirst, hasLexeme_iff hlast, hexits, hhelp]
  simp only [not_hasLexeme hcomment, or_false]

theorem answers_of_reserve_exitsText :
    ∃ s', exitsText.reserve "exit" "leave" = .ok s' ∧ exitsText.isReserved "exit" = false ∧
      (∀ w, HasLexeme exitsText.input w ↔ w = "exits" ∨ w = "?") ∧
      ¬ exitsText.Meets "exit" ∧ ∀ n, s'.answers n = exitsText.answers n := by
  have hreserve : exitsText.reserve "exit" "leave" =
      .ok { exitsText with reserved := [("exit", "leave"), ("?", "help")] } := rfl
  have hnew : exitsText.isReserved "exit" = false := by decide
  obtain ⟨hiff, hlexemes⟩ := answers_of_reserve hreserve
  have hsame := hlexemes
    (by
      intro w hw
      rcases (hasLexeme_exitsText w).mp hw with rfl | rfl <;> decide)
    (by
      intro w hw c hc hchar
      rcases (hasLexeme_exitsText w).mp hw with rfl | rfl
      · obtain rfl : 'e' = c := by simpa using hc
        exact absurd hchar (by decide)
      · obtain rfl : '?' = c := by simpa using hc
        decide)
  exact ⟨_, hreserve, hnew, hasLexeme_exitsText, (hiff hnew).mp hsame, hsame⟩

/-- A reserved letter is not looked up as a whole word, but as the first character of a token, so
it cuts up a longer word. -/
theorem not_answers_of_reserve :
    ∃ s s' : Source, s.reserve "x" "met" = .ok s' ∧ (∀ w, HasLexeme s.input w ↔ w = "xy") ∧
      s'.answers 1 = [(.ok (.reserved "x"), ['y'], ["met"])] ∧
      s.answers 1 = [(.ok (.identifier "xy"), [], [])] := by
  refine ⟨{ input := ['x', 'y'] }, { input := ['x', 'y'], reserved := [("x", "met")] }, rfl,
    fun w => ?_, rfl, rfl⟩
  have hword : skipBlanks ['x', 'y'] = 'x' :: ['y'] := by decide
  have hend : skipBlanks (lexeme 'x' ['y']).2 = [] := by decide
  have hxy : (lexeme 'x' ['y']).1 = "xy" := by decide
  rw [hasLexeme_iff hword, hxy]
  simp only [not_hasLexeme hend, or_false]

end Source

end LambdaCalc
