import LambdaCalc.Proofs.Reserving
import LambdaCalc.Proofs.Rendering

namespace LambdaCalc

theorem exists_of_isReservable {word : String} (h : isReservable word = true) :
    ∃ c cs, word.toList = c :: cs ∧
      (c.isLower = true ∧ (∀ d ∈ cs, isWordChar d = true) ∨
        cs = [] ∧ isWordChar c = false ∧ Text.isBlank c = false) := by
  rw [isReservable] at h
  split at h
  · cases h
  · next c hlist =>
    refine ⟨c, [], hlist, ?_⟩
    rcases Bool.or_eq_true_iff.mp h with hlower | hspecial
    · exact .inl ⟨hlower, by simp⟩
    · simp only [Bool.and_eq_true, Bool.not_eq_true'] at hspecial
      exact .inr ⟨rfl, hspecial⟩
  · next c cs _ hlist =>
    simp only [Bool.and_eq_true, List.all_eq_true] at h
    exact ⟨c, cs, hlist, .inl h⟩

namespace Token

/-- A reserved word is read as such, if no reserved character cuts it up and it is no comment. -/
theorem read_reserved {isReserved : String → Bool} {word : String} {rest : List Char}
    (hword : isReservable word = true) (hreserved : isReserved word = true)
    (hfirst : ∀ c ∈ word.toList.head?, isReserved c.toString = true → c.toString = word)
    (hrest : EndsWord rest) (hne : word ≠ "#") :
    read isReserved (word.toList ++ rest) = (.ok (reserved word), rest) := by
  obtain ⟨c, cs, hlist, hshape⟩ := exists_of_isReservable hword
  have hof : word = String.ofList (c :: cs) := by rw [← hlist, String.ofList_toList]
  have hcut := hfirst c (by simp [hlist])
  by_cases hchar : isReserved c.toString = true
  · -- the first character is reserved, so it is the whole word
    obtain rfl := hcut hchar
    have hblank : Text.isBlank c = false := by
      rcases hshape with ⟨hlower, -⟩ | ⟨-, -, hblank⟩
      · exact Text.isBlank_eq_false_of_isWordChar (isWordChar_of_isLower hlower)
      · exact hblank
    have hhash : c ≠ '#' := by
      rintro rfl
      exact hne rfl
    have htext : c.toString.toList = [c] := by simp
    rw [htext, List.cons_append, List.nil_append, read_cons hblank hhash, readFrom, if_pos hchar]
  · rcases hshape with ⟨hlower, hcs⟩ | ⟨rfl, -, -⟩
    · rw [hlist, List.cons_append, read_word hlower hcs hrest (by simpa using hchar), ← hof,
        ofLowercase, if_pos hreserved]
    · have hone : word = c.toString := by rw [hof]; rfl
      exact absurd (hone ▸ hreserved) hchar

end Token

namespace Source

theorem eq_of_reserve {s s' : Source} {word signal : String} (h : s.reserve word signal = .ok s') :
    isReservable word = true ∧
      s' = { s with reserved := (word, signal) :: s.reserved.filter (·.1 != word) } := by
  unfold reserve at h
  split at h
  · next hword =>
    cases h
    exact ⟨hword, rfl⟩
  · cases h

/-- No token begins with the character that begins a comment. -/
theorem not_meets_hash (s : Source) : ¬ s.Meets "#" := by
  intro h
  generalize hword : "#" = word at h
  induction h with
  | @here s c cs hskip hmet =>
    have hhash : c ≠ '#' := (skip_head.1 hskip).2
    rcases hmet with rfl | ⟨-, -, rfl⟩
    · exact hhash (by simpa using (congrArg String.toList hword).symm)
    · have hhead := head?_lexeme c cs
      rw [← hword] at hhead
      exact hhash (by simpa using hhead.symm)
  | later _ ih => exact ih

/-- Where a single word is reserved, it is read behind every gap in front of anything that ends it,
and raises its signal once, unless it begins a comment. That one can be reserved as well, but the
text is read as if it were not. -/
theorem next_of_reserve {s s' : Source} {word signal : String} {gap rest : List Char}
    (hfree : s.reserved = []) (h : s.reserve word signal = .ok s')
    (hinput : s.input = gap ++ (word.toList ++ rest)) (hgap : Gap gap) (hrest : EndsWord rest) :
    (s'.next = (.ok (.reserved word),
        { s' with input := rest, raised := s.raised ++ [signal] }) ↔ word ≠ "#") ∧
      (word = "#" → ∀ n, s'.answers n = s.answers n) := by
  have hsame (he : word = "#") (n : Nat) : s'.answers n = s.answers n :=
    (beside_of_reserve h).1.answers_eq (he ▸ s.not_meets_hash) n
  refine ⟨⟨fun hnext he => ?_, fun hne => ?_⟩, hsame⟩
  · have hone := hsame he 1
    simp only [answers, List.cons.injEq, Prod.mk.injEq] at hone
    have hfound : s.next.1 = .ok (.reserved word) := hone.1.1.symm.trans (congrArg Prod.fst hnext)
    have hhonest := Token.honest_read s.isReserved s.input
    rw [show (Token.read s.isReserved s.input).1 = _ from hfound] at hhonest
    have hnone : s.isReserved word = false := by simp [isReserved, hfree]
    exact Bool.false_ne_true (hnone.symm.trans hhonest)
  · obtain ⟨hword, hs'⟩ := eq_of_reserve h
    have hlookup (other : String) :
        s'.reserved.lookup other = if other = word then some signal else none := by
      by_cases hother : other = word
      · simp [hs', hother]
      · have hapart : (other == word) = false := by simpa using hother
        simp [hs', hfree, List.lookup_cons, hapart, hother]
    have hread : Token.read s'.isReserved (word.toList ++ rest) = _ :=
      Token.read_reserved hword (by simp [isReserved, hlookup])
        (by simp [isReserved, hlookup]) hrest hne
    have hinput' : s'.input = gap ++ (word.toList ++ rest) := by rw [hs', hinput]
    have hraised : s'.raised = s.raised := by rw [hs']
    rw [← hgap.read_append, ← hinput'] at hread
    rw [next, hread]
    simp [signals, hlookup, hraised]

theorem next_of_reserve_hiddenTrue :
    ∃ s', reserve { input := "# no\n true.x".toList } "true" "met" = .ok s' ∧
      s'.next = (.ok (.reserved "true"), { s' with input := ".x".toList, raised := ["met"] }) := by
  have hline : '\n' ∉ " no".toList := by decide
  have hgap : Gap "# no\n ".toList := .comment hline (.blank (by decide) .nil)
  have hrest : EndsWord ".x".toList := by simp [EndsWord, isWordChar]
  have hinput : "# no\n true.x".toList = "# no\n ".toList ++ ("true".toList ++ ".x".toList) := by
    decide
  have hreserve : reserve { input := "# no\n true.x".toList } "true" "met" =
      .ok { input := "# no\n true.x".toList, reserved := [("true", "met")] } := rfl
  exact ⟨_, hreserve, (next_of_reserve rfl hreserve hinput hgap hrest).1.mpr (by decide)⟩

/-- A comment can be reserved, but its signal is not raised where it is read first. -/
theorem not_next_of_reserve :
    ∃ s s' : Source, s.reserved = [] ∧ s.reserve "#" "met" = .ok s' ∧
      s.input = [] ++ ("#".toList ++ []) ∧ Gap [] ∧ EndsWord [] ∧
      s'.next = (.ok .endOfInput, { s' with input := [], raised := [] }) :=
  ⟨{ input := ['#'] }, { input := ['#'], reserved := [("#", "met")] }, rfl, rfl, rfl, .nil,
    by simp [EndsWord], rfl⟩

end Source

end LambdaCalc
