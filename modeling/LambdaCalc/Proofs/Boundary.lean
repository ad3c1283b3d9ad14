import LambdaCalc.Proofs.Respelling
import LambdaCalc.Proofs.Sentence
import LambdaCalc.Script

namespace LambdaCalc

namespace Token

variable {isReserved : String → Bool} {input rest : List Char} {o : Operator}

theorem eq_char_of_readFrom {c : Char} {cs : List Char}
    (h : readFrom isReserved c cs = (.ok (operator o), rest)) :
    isReserved o.char.toString = false ∧ c = o.char ∧ cs = rest := by
  unfold readFrom at h
  split at h
  · cases h
  · next hfree =>
    split at h
    · simp only [ofLowercase, ofWord, Prod.mk.injEq, Except.ok.injEq] at h
      obtain ⟨h, -⟩ := h
      repeat' split at h
      all_goals cases h
    · split at h
      · cases h
      · split at h
        · have hof := congrArg Prod.fst h
          unfold ofDigits at hof
          repeat' split at hof
          all_goals cases hof
        · split at h
          · next hchar =>
            cases h
            obtain rfl := (Operator.ofChar?_eq_some_iff _ _).mp hchar
            exact ⟨by simpa using hfree, rfl, rfl⟩
          · cases h

/-- An operator is read without a look at what follows it. -/
theorem read_operator_append (h : read isReserved input = (.ok (operator o), rest)) :
    ∃ front, input = front ++ o.char :: rest ∧
      ∀ other, read isReserved (front ++ o.char :: other) = (.ok (operator o), other) := by
  obtain ⟨c, cs, hskip, hfrom⟩ := skipBlanks_of_read h nofun
  obtain ⟨hfree, rfl, rfl⟩ := eq_char_of_readFrom hfrom
  obtain ⟨hinput, hgap⟩ := gap_append hskip
  refine ⟨gap input, hinput, fun other => ?_⟩
  rw [read, hgap, ← read, read_operator o hfree]

end Token

theorem Operator.isWordChar_char (o : Operator) : isWordChar o.char = false := by
  cases o <;> decide

/-- Tokens that end with an operator are cut off in the same way whatever follows the operator. -/
theorem Cut.boundary {isReserved : String → Bool} {input rest : List Char} {tokens : List Token}
    {o : Operator} (h : Cut isReserved input (tokens ++ [.operator o]) rest) :
    ∃ front, input = front ++ o.char :: rest ∧
      ∀ other, Cut isReserved (front ++ o.char :: other) (tokens ++ [.operator o]) other := by
  induction tokens generalizing input with
  | nil =>
    obtain ⟨behind, hr, -, hrest⟩ := cons_iff.mp h
    cases hrest
    obtain ⟨front, rfl, hother⟩ := Token.read_operator_append hr
    exact ⟨front, rfl, fun other => .cons (hother other) nofun (.nil other)⟩
  | cons token tokens ih =>
    obtain ⟨behind, hr, hne, hrest⟩ := cons_iff.mp h
    obtain ⟨front, rfl, -, hfront⟩ := Token.read_append hr hne
    obtain ⟨back, rfl, hback⟩ := ih hrest
    refine ⟨front ++ back, by simp, fun other => .cons ?_ hne (hback other)⟩
    rw [List.append_assoc]
    -- a longer word cannot come up, since an operator stands where the text begins to differ
    refine hfront _ fun hends => hends.of_append fun _ => ?_
    simp [EndsWord, o.isWordChar_char]

theorem Reader.eq_withInput {r r' : Reader} {input : List Char} (hinput : r'.source.input = input)
    (hreserved : r'.source.reserved = r.source.reserved)
    (hraised : r'.source.raised = r.source.raised) (hcurrent : r'.current = r.current)
    (hprogram : r'.program = r.program) (hsupply : r'.supply = r.supply)
    (hbudget : r'.budget = r.budget) (hpatience : r'.patience = r.patience) :
    r' = r.withInput input := by
  obtain ⟨⟨_, _, _⟩, _, _, _, _, _⟩ := r'
  simp only [withInput, Reader.mk.injEq, Source.mk.injEq]
  exact ⟨⟨hinput, hreserved, hraised⟩, hcurrent, hprogram, hsupply, hbudget, hpatience⟩

namespace Read

variable {r r' : Reader} {c : Command}

/-- At the end of a statement its semicolon was just read, and no reserved word before it. -/
theorem semicolon_of_statement (h : statement r = .ok (some c) r') :
    r'.current = .operator .semicolon ∧ r'.source.reserved = r.source.reserved ∧
      r'.source.raised = r.source.raised ∧ r'.budget = r.budget ∧ r'.patience = r.patience := by
  have hcurrent : r'.current = .operator .semicolon := by
    have hclosed {work : Read Command} {r₁ : Reader} (hw : closed work r₁ = .ok (some c) r') :
        r'.current = .operator .semicolon := by
      obtain ⟨c', r₂, -, hc, -, rfl⟩ := closed_ok hw
      exact hc
    obtain ⟨r₁, -, ⟨e, hs⟩ | hs | ⟨-, hs⟩ | hs⟩ := statement_cases r
    · cases hs.symm.trans h
    · cases hs.symm.trans h
    · exact hclosed (hs.symm.trans h)
    · exact hclosed (hs.symm.trans h)
  have hended := ended_statement r
  rw [h] at hended
  obtain ⟨⟨tokens, hl⟩, hc⟩ := hended
  refine ⟨hcurrent, hl.raised.1, hl.raised_of_ne_reserved hc, ?_⟩
  rcases statement_ok h with ⟨hnone, -⟩ | ⟨r₁, r₂, c', -, hk, ⟨hw, rfl⟩ | ⟨word, hb, rfl⟩⟩
  · cases hnone
  · have hkeeps := hk.trans ((frames_command _).keeps_of_ok hw)
    exact ⟨hkeeps.budget, hkeeps.patience⟩
  · have hkeeps := hk.trans ((frames_binding _).keeps_of_ok hb)
    exact ⟨hkeeps.budget, hkeeps.patience⟩

/-- A statement is read up to its semicolon, and reads the same in front of any other text. -/
theorem statement_withInput_append (h : statement r = .ok (some c) r') :
    ∃ (x : Sentence) (empty : Nat) (front : List Char),
      r.source.input = front ++ ';' :: r'.source.input ∧
      Cut r.source.isReserved (front ++ [';']) (x.row empty ++ [.operator .semicolon]) [] ∧
      ∀ s', statement (r.withInput (front ++ ';' :: s')) = .ok (some c) (r'.withInput s') := by
  obtain ⟨x, empty, hx⟩ := sentence_of_statement h
  obtain ⟨front, hinput, hother⟩ := hx.cut.boundary
  refine ⟨x, empty, front, hinput, hother [], fun s' => ?_⟩
  obtain ⟨r'', hs, hrest, hsupply, hprogram⟩ := statement_of_sentence
    (r := r.withInput (front ++ ';' :: s')) hx.fits (hother s') hx.denotes hx.means
  obtain ⟨hcurrent, hreserved, hraised, hbudget, hpatience⟩ := semicolon_of_statement h
  obtain ⟨hcurrent', hreserved', hraised', hbudget', hpatience'⟩ := semicolon_of_statement hs
  have hr'' : r'' = r'.withInput s' :=
    Reader.eq_withInput hrest (hreserved'.trans hreserved.symm) (hraised'.trans hraised.symm)
      (hcurrent'.trans hcurrent.symm) (hprogram.trans hx.program.symm) hsupply
      (hbudget'.trans hbudget.symm) (hpatience'.trans hpatience.symm)
  rw [hs, hr'']

theorem outcomes_ok {n : Nat} {l : List Term} (h : outcomes (n + 1) r = .ok l r') :
    (statement r = .ok none r' ∧ l = []) ∨
      ∃ c r₁ t s l', statement r = .ok (some c) r₁ ∧
        c.execute r₁.patience r₁.supply = .ok t s ∧
        outcomes n { r₁ with supply := s } = .ok l' r' ∧ l = t :: l' := by
  obtain ⟨c?, r₁, hs, h⟩ := bind_eq_ok h
  cases c? with
  | none =>
    cases h
    exact .inl ⟨hs, rfl⟩
  | some c =>
    change (ofAttempt (c.execute r₁.patience) >>= fun t => outcomes n >>= fun l => pure (t :: l))
      r₁ = _ at h
    obtain ⟨t, r₂, he, h⟩ := bind_eq_ok h
    obtain ⟨l', r₃, ho, h⟩ := bind_eq_ok h
    cases h
    obtain ⟨s, hex, rfl⟩ := ofAttempt_eq_ok he
    exact .inr ⟨c, r₁, t, s, l', hs, hex, ho, rfl⟩

theorem outcomes_error {n : Nat} {e : Error} (h : outcomes (n + 1) r = .error e r') :
    statement r = .error e r' ∨
      ∃ c r₁, statement r = .ok (some c) r₁ ∧
        ((∃ s, c.execute r₁.patience r₁.supply = .error e s) ∨
          ∃ t s, c.execute r₁.patience r₁.supply = .ok t s ∧
            outcomes n { r₁ with supply := s } = .error e r') := by
  rcases bind_eq_error h with hs | ⟨c?, r₁, hs, h⟩
  · exact .inl hs
  · cases c? with
    | none => cases h
    | some c =>
      refine .inr ⟨c, r₁, hs, ?_⟩
      change (ofAttempt (c.execute r₁.patience) >>= fun t => outcomes n >>= fun l => pure (t :: l))
        r₁ = _ at h
      rcases bind_eq_error h with he | ⟨t, r₂, he, h⟩
      · obtain ⟨s, hex, -⟩ := ofAttempt_eq_error he
        exact .inl ⟨s, hex⟩
      · obtain ⟨s, hex, rfl⟩ := ofAttempt_eq_ok he
        rcases bind_eq_error h with ho | ⟨l, r₃, -, h⟩
        · exact .inr ⟨t, s, hex, ho⟩
        · cases h

/-- The outcomes of a text come first among those of a longer one. -/
theorem outcomes_append {n m : Nat} {s : List Char} {l₁ l₂ : List Term} {r₁ r₂ : Reader}
    (h₁ : outcomes n r = .ok l₁ r₁)
    (h₂ : outcomes m (r.withInput (r.source.input ++ s)) = .ok l₂ r₂) : l₁ <+: l₂ := by
  induction n generalizing m r l₁ l₂ with
  | zero => cases h₁
  | succ n ih =>
    rcases outcomes_ok h₁ with ⟨-, rfl⟩ | ⟨c, r', t, s₁, l, hs, he, ho, rfl⟩
    · exact List.nil_prefix
    · cases m with
      | zero => cases h₂
      | succ m =>
        obtain ⟨-, -, front, hinput, -, hother⟩ := statement_withInput_append hs
        have hlonger := hother (r'.source.input ++ s)
        rw [← List.cons_append, ← List.append_assoc, ← hinput] at hlonger
        rcases outcomes_ok h₂ with ⟨hs', -⟩ | ⟨c', r'', t', s₂, l', hs', he', ho', rfl⟩
        · cases hlonger.symm.trans hs'
        · cases hlonger.symm.trans hs'
          cases he.symm.trans he'
          exact (List.prefix_cons_inj t).mpr (ih ho ho')

/-- The text that a statement takes ends with the semicolon that ends the statement. In front of any
other text it is the same statement, of which the same reader is left, and no signal is raised. So
the outcomes of a whole text come first among those of a longer one. -/
theorem statement_of_boundary :
    (∀ (r r' : Reader) (c : Command) (p s : List Char), r.source.input = p ++ s →
      statement r = .ok (some c) r' → r'.source.input = s →
        (∃ (x : Sentence) (empty : Nat) (front : List Char), p = front ++ [';'] ∧
          Cut r.source.isReserved p (x.row empty ++ [.operator .semicolon]) []) ∧
        r'.current = .operator .semicolon ∧ r'.source.raised = r.source.raised ∧
        ∀ s', statement (r.withInput (p ++ s')) = .ok (some c) (r'.withInput s')) ∧
      ∀ (s₁ s₂ : List Char) (budget patience : Nat) (l₁ l₂ : List Term),
        Script.run s₁ budget patience = .ok l₁ → Script.run (s₁ ++ s₂) budget patience = .ok l₂ →
          l₁ <+: l₂ := by
  constructor
  · intro r r' c p s hp h hs
    obtain ⟨x, empty, front, hinput, hcut, hother⟩ := statement_withInput_append h
    obtain ⟨hcurrent, -, hraised, -⟩ := semicolon_of_statement h
    have hfront : p = front ++ [';'] := by
      have hsplit : p ++ s = front ++ [';'] ++ s := by
        rw [← hp, hinput, hs, List.append_assoc]
        rfl
      exact List.append_cancel_right hsplit
    subst hfront
    refine ⟨⟨x, empty, front, rfl, hcut⟩, hcurrent, hraised, fun s' => ?_⟩
    rw [List.append_assoc]
    exact hother s'
  · intro s₁ s₂ budget patience l₁ l₂ h₁ h₂
    unfold Script.run at h₁ h₂
    split at h₁
    · next ho₁ =>
      cases h₁
      split at h₂
      · next ho₂ =>
        cases h₂
        exact outcomes_append ho₁ ho₂
      · cases h₂
    · cases h₁

/-- A reader in front of an assignment between an empty statement and a reserved word. -/
def assignedBeforeExit : Reader where
  source := { input := "; # a; b\n'I' = \\x . x;exit".toList, reserved := [("exit", "leave")] }
  budget := 0
  patience := 0

theorem statement_of_boundary_assignedBeforeExit :
    (∃ c r', statement assignedBeforeExit = .ok (some c) r' ∧ r'.source.input = "exit".toList ∧
      r'.source.raised = [] ∧
      statement (assignedBeforeExit.withInput "; # a; b\n'I' = \\x . x;) # ;".toList) =
        .ok (some c) (r'.withInput ") # ;".toList)) ∧
    ∃ l₁ l₂, Script.run "'I' = \\x . x; (I) y 0>;".toList 0 3 = .ok l₁ ∧
      Script.run "'I' = \\x . x; (I) y 0>; I;".toList 0 3 = .ok l₂ ∧
      l₁.length = 2 ∧ l₂.length = 3 ∧ l₁ <+: l₂ := by
  constructor
  · have hrun : (answers? statement assignedBeforeExit).map
        (fun found => (found.1.isSome, found.2.source.input)) = some (true, "exit".toList) := by
      decide +kernel
    obtain ⟨⟨c?, r'⟩, hs, hfound⟩ := Option.map_eq_some_iff.mp hrun
    simp only [Prod.mk.injEq] at hfound
    obtain ⟨hsome, hinput⟩ := hfound
    obtain ⟨c, rfl⟩ := Option.isSome_iff_exists.mp hsome
    have h := answers?_eq_some_iff.mp hs
    obtain ⟨-, -, hraised, hother⟩ := statement_of_boundary.1 assignedBeforeExit r' c
      "; # a; b\n'I' = \\x . x;".toList "exit".toList (by decide) h hinput
    exact ⟨c, r', h, hinput, hraised, hother ") # ;".toList⟩
  · have hshort : (Script.run "'I' = \\x . x; (I) y 0>;".toList 0 3).toOption.map List.length =
        some 2 := by decide +kernel
    have hlong : (Script.run "'I' = \\x . x; (I) y 0>; I;".toList 0 3).toOption.map List.length =
        some 3 := by decide +kernel
    have hok {x : Except Error (List Term)} {l : List Term} (h : x.toOption = some l) :
        x = .ok l := by
      cases x <;> cases h
      rfl
    obtain ⟨l₁, h₁, hl₁⟩ := Option.map_eq_some_iff.mp hshort
    obtain ⟨l₂, h₂, hl₂⟩ := Option.map_eq_some_iff.mp hlong
    have happend := statement_of_boundary.2 "'I' = \\x . x; (I) y 0>;".toList " I;".toList 0 3
      l₁ l₂ (hok h₁) (hok h₂)
    exact ⟨l₁, l₂, hok h₁, hok h₂, hl₁, hl₂, happend⟩

end Read

end LambdaCalc
