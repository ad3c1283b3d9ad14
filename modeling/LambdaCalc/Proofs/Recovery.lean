import LambdaCalc.Proofs.Signals
import LambdaCalc.Session

namespace LambdaCalc

theorem skip_suffix (cs : List Char) : skipBlanks cs <:+ cs ∧ skipComment cs <:+ cs := by
  induction cs with
  | nil => simp [skipBlanks, skipComment]
  | cons c cs ih =>
    obtain ⟨hblanks, hcomment⟩ := ih
    constructor
    · unfold skipBlanks
      split
      · exact hblanks.trans (List.suffix_cons c cs)
      · split
        · exact hcomment.trans (List.suffix_cons c cs)
        · exact List.suffix_refl _
    · unfold skipComment
      split
      · exact hblanks.trans (List.suffix_cons c cs)
      · exact hcomment.trans (List.suffix_cons c cs)

/-- No line ends in between. -/
theorem afterLine_append {front : List Char} (h : '\n' ∉ front) (rest : List Char) :
    afterLine (front ++ rest) = afterLine rest := by
  induction front with
  | nil => rfl
  | cons c front ih =>
    rw [List.mem_cons, not_or] at h
    rw [List.cons_append, afterLine, if_neg (Ne.symm h.1), ih h.2]

theorem afterLine_dropWhile {p : Char → Bool} (hp : p '\n' = false) (cs : List Char) :
    afterLine (cs.dropWhile p) = afterLine cs := by
  have hfront : '\n' ∉ cs.takeWhile p := by
    intro hm
    have := List.all_eq_true.mp List.all_takeWhile _ hm
    simp [hp] at this
  conv_rhs => rw [← @List.takeWhile_append_dropWhile _ p cs, afterLine_append hfront]

namespace Token

variable {isReserved : String → Bool} {input rest : List Char} {found : Except Error Token}

/-- What is left behind a token is left of its line and of the lines below. -/
theorem readFrom_suffix (isReserved : String → Bool) (c : Char) (cs : List Char) :
    (readFrom isReserved c cs).2 <:+ cs ∧
      afterLine (readFrom isReserved c cs).2 = afterLine cs := by
  have hword : isWordChar '\n' = false := by decide
  have hdigit : Char.isDigit '\n' = false := by decide
  unfold readFrom
  repeat' split
  all_goals first
    | exact ⟨List.suffix_refl cs, rfl⟩
    | exact ⟨List.dropWhile_suffix _, afterLine_dropWhile hword cs⟩
    | exact ⟨List.dropWhile_suffix _, afterLine_dropWhile hdigit cs⟩

theorem suffix_of_read (h : read isReserved input = (found, rest)) :
    rest <:+ skipBlanks input ∧ afterLine rest = afterLine (skipBlanks input) := by
  rw [read] at h
  split at h
  · next hs =>
    cases h
    rw [hs]
    exact ⟨List.suffix_refl _, rfl⟩
  · next c cs hs =>
    have hc : c ≠ '\n' := by
      rintro rfl
      exact absurd (skip_head.1 hs).1 (by decide)
    obtain ⟨hsuffix, hline⟩ := readFrom_suffix isReserved c cs
    rw [h] at hsuffix hline
    rw [hs, afterLine, if_neg hc]
    exact ⟨hsuffix.trans (List.suffix_cons c cs), hline⟩

end Token

namespace Source

/-- The lines below the one on which the next token stands. -/
def below (s : Source) : List Char := afterLine (skipBlanks s.input)

variable {s s' : Source} {found : Except Error Token}

theorem afterLine_of_next (h : s.next = (found, s')) : afterLine s'.input = s.below :=
  (Token.suffix_of_read (read_of_next h)).2

theorem suffix_of_next (h : s.next = (found, s')) :
    skipBlanks s'.input <:+ skipBlanks s.input :=
  (skip_suffix s'.input).1.trans (Token.suffix_of_read (read_of_next h)).1

end Source

/-- The error with which the reader stopped is about the next token of `stands`. The last token
that it read is the next one of `last`. -/
inductive Reader.Blames (r : Reader) (e : Error) : Source → Source → Prop
  | unread {s : Source} : s.next = (.error e, r.source) → Blames r e s s
  | unexpected {s : Source} {wanted : Expectation} :
      s.next = (.ok r.current, r.source) → e = .unexpected wanted r.current → Blames r e s s
  | rejected {s s' : Source} {token : Token} :
      s.next = (.ok token, s') → r.Rejects token e → s'.next = (.ok r.current, r.source) →
      Blames r e s s'

namespace Reader.Blames

variable {r : Reader} {e : Error} {stands last : Source}

/-- Nothing is read behind the last token. -/
theorem afterLine_eq (h : r.Blames e stands last) : afterLine r.source.input = last.below := by
  cases h with
  | unread hn => exact Source.afterLine_of_next hn
  | unexpected hn _ => exact Source.afterLine_of_next hn
  | rejected _ _ hn => exact Source.afterLine_of_next hn

theorem suffix (h : r.Blames e stands last) :
    skipBlanks last.input <:+ skipBlanks stands.input := by
  cases h with
  | unread _ => exact List.suffix_refl _
  | unexpected _ _ => exact List.suffix_refl _
  | rejected hn _ _ => exact Source.suffix_of_next hn

end Reader.Blames

/-- Every fault but a reserved word is about a token of the text. -/
theorem Read.Fault.blames {s₀ : Source} {e : Error} {r : Reader} (h : Fault s₀ e r)
    (he : ∀ word, e ≠ .reservedWord word) :
    ∃ tokens stands last, s₀.Reaches tokens stands ∧ r.Blames e stands last := by
  cases h with
  | unread hr hn => exact ⟨_, _, _, hr, .unread hn⟩
  | refused wanted hl hfailure =>
    obtain ⟨s, hs, hn⟩ := hl.exists_reaches
    refine ⟨_, s, s, hs, .unexpected hn (?_ : e = .unexpected wanted r.current)⟩
    rw [hfailure] at he ⊢
    generalize r.current = token at he
    cases token with
    | reserved word => exact absurd rfl (he word)
    | _ => rfl
  | rejected hl hr =>
    cases hl with
    | next hp _ hn =>
      obtain ⟨s, hs, hn'⟩ := hp.exists_reaches
      exact ⟨_, s, _, hs, .rejected hn' hr hn⟩

namespace Session

theorem respond_error (s : Session) {e : Error} (he : ∀ word, e ≠ .reservedWord word) :
    s.respond (.error e) = .next (e.message ++ "\n") s.skipLine := by
  cases e with
  | reservedWord word => exact absurd rfl (he word)
  | _ => rfl

/-- What a session leaves of the text when a statement fails over anything but a reserved word. It
reports the error and goes on below the line of the last token that was read. The error is about
that token, unless it rejects a name, a numeral or a count, and then it is about the token in front
of it. What stands between the two is lost, but no more than that: if no line ends in between, the
session goes on below the line of the token that the error is about. -/
theorem turn_of_error (s : Session) {e : Error} {r' : Reader}
    (h : Read.statement s.reader = .error e r') (he : ∀ word, e ≠ .reservedWord word) :
    ∃ tokens stands last front, s.reader.source.Reaches tokens stands ∧
      r'.Blames e stands last ∧
      s.turn = .next (e.message ++ "\n") (s.follow r').skipLine ∧
      (s.follow r').skipLine.reader.source.input = last.below ∧
      skipBlanks stands.input = front ++ skipBlanks last.input ∧
      ('\n' ∉ front → last.below = stands.below) := by
  have hended := Read.ended_statement s.reader
  rw [h] at hended
  obtain ⟨tokens, stands, last, hreaches, hblames⟩ := hended.blames he
  obtain ⟨front, hfront⟩ := hblames.suffix
  have hturn : s.turn = .next (e.message ++ "\n") (s.follow r').skipLine := by
    rw [turn, read, h]
    exact respond_error _ he
  refine ⟨tokens, stands, last, front, hreaches, hblames, hturn, hblames.afterLine_eq,
    hfront.symm, ?_⟩
  intro hline
  rw [Source.below, Source.below, ← hfront, afterLine_append hline]

/-- A session of a text in which a name that nothing was assigned to is the last word of its
line. -/
def swallowedLine : Session := start "Foo\nx;\n".toList 0 0

/-- The reader of that session has read a token of the next line when it fails. -/
def swallowedLineLeft : Reader :=
  { swallowedLine.reader with
    source := { swallowedLine.reader.source with input := ";\n".toList }
    current := .identifier "x" }

theorem statement_swallowedLine :
    Read.statement swallowedLine.reader = .error (.undefinedName "Foo") swallowedLineLeft :=
  Read.stops?_eq_some_iff.mp (by decide +kernel)

theorem turn_of_error_swallowedLine :
    ∃ tokens stands last front, swallowedLine.reader.source.Reaches tokens stands ∧
      swallowedLineLeft.Blames (.undefinedName "Foo") stands last ∧
      skipBlanks stands.input = front ++ skipBlanks last.input ∧
      (swallowedLine.follow swallowedLineLeft).skipLine.reader.source.input = last.below := by
  obtain ⟨tokens, stands, last, front, hreaches, hblames, -, hleft, hfront, -⟩ :=
    turn_of_error swallowedLine statement_swallowedLine (by simp)
  exact ⟨tokens, stands, last, front, hreaches, hblames, hfront, hleft⟩

/-- The line below the token that an error is about can be lost. -/
theorem not_below_of_error :
    ¬∀ (s : Session) (e : Error) (r' : Reader) (tokens : List Token) (stands last : Source),
      Read.statement s.reader = .error e r' → (∀ word, e ≠ .reservedWord word) →
        s.reader.source.Reaches tokens stands → r'.Blames e stands last →
          (s.follow r').skipLine.reader.source.input = stands.below := by
  intro h
  let source : Source := swallowedLine.reader.source
  have hn : source.next = (.ok (.name "Foo"), source.next.2) := by decide +kernel
  have hblames : swallowedLineLeft.Blames (.undefinedName "Foo") source source.next.2 :=
    .rejected hn (.undefined (by decide +kernel)) (by decide +kernel)
  have hleft := h swallowedLine _ _ [] source _ statement_swallowedLine (by simp) .start hblames
  exact absurd hleft (by decide +kernel)

end Session

end LambdaCalc
