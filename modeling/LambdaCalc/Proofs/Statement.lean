import LambdaCalc.Proofs.Parsing

namespace LambdaCalc.Read

variable {r r' : Reader} {e : Error}

/-- An assignment up to the point where its name is written: the name and the command. -/
def binding (room : List Char) : Read (String × Command) := do
  advance
  let word ← name .assignedName
  expect .quote .closingQuote
  expect .equals .equalsSign
  let c ← command room
  return (word, c)

/-- A command with the semicolon behind it. -/
def closed (work : Read Command) : Read (Option Command) := do
  let c ← work
  if (← current) = .operator .semicolon then
    modify fun r => { r with program := r.program.setLast c }
    return some c
  else refuse .semicolon

theorem assignment_eq (room : List Char) : assignment room = (do
    let (word, c) ← binding room
    modify fun r => { r with program := r.program.insert word c }
    return c) := by
  simp only [assignment, binding, bind_assoc, pure_bind]

theorem frames_binding (room : List Char) : Frames (binding room) := by
  refine frames_advance.bind fun _ => (frames_name _).bind fun word => ?_
  refine (frames_expect _ _).bind fun _ => (frames_expect _ _).bind fun _ => ?_
  exact (frames_command room).bind fun c => frames_pure _

/-- The command of an assignment is read behind the equals sign. -/
theorem command_of_binding {room : List Char} {word : String} {c : Command}
    (h : binding room r = .ok (word, c) r') :
    ∃ r₁, r.Keeps r₁ ∧ command room r₁ = .ok c r' := by
  obtain ⟨_, r₁, h₁, h⟩ := bind_eq_ok h
  obtain ⟨name, r₂, h₂, h⟩ := bind_eq_ok h
  obtain ⟨_, r₃, h₃, h⟩ := bind_eq_ok h
  obtain ⟨_, r₄, h₄, h⟩ := bind_eq_ok h
  obtain ⟨c', r₅, h₅, h₆⟩ := bind_eq_ok h
  cases h₆
  have hk₂ := (frames_advance.keeps_of_ok h₁).trans ((frames_name _).keeps_of_ok h₂)
  have hk₄ := ((frames_expect _ _).keeps_of_ok h₃).trans ((frames_expect _ _).keeps_of_ok h₄)
  exact ⟨r₄, hk₂.trans hk₄, h₅⟩

theorem assignment_ok {room : List Char} {c : Command} (h : assignment room r = .ok c r') :
    ∃ word r₁, binding room r = .ok (word, c) r₁ ∧
      r' = { r₁ with program := r₁.program.insert word c } := by
  rw [assignment_eq] at h
  obtain ⟨⟨word, c'⟩, r₁, hb, hm⟩ := bind_eq_ok h
  cases hm
  exact ⟨word, r₁, hb, rfl⟩

theorem assignment_of_binding {room : List Char} {word : String} {c : Command}
    (h : binding room r = .ok (word, c) r') :
    assignment room r = .ok c { r' with program := r'.program.insert word c } := by
  rw [assignment_eq, bind_of_ok h]
  rfl

theorem assignment_error {room : List Char} (h : assignment room r = .error e r') :
    binding room r = .error e r' := by
  rw [assignment_eq] at h
  rcases bind_eq_error h with hb | ⟨p, r₁, _, hm⟩
  · exact hb
  · cases hm

theorem closed_ok {work : Read Command} {c? : Option Command} (h : closed work r = .ok c? r') :
    ∃ c r₁, work r = .ok c r₁ ∧ r₁.current = .operator .semicolon ∧ c? = some c ∧
      r' = { r₁ with program := r₁.program.setLast c } := by
  obtain ⟨c, r₁, hw, hc⟩ := bind_eq_ok h
  rw [current_bind] at hc
  split at hc
  · next hsemicolon =>
    cases hc
    exact ⟨c, r₁, hw, hsemicolon, rfl, rfl⟩
  · cases hc

theorem closed_of_ok {work : Read Command} {c : Command} {r₁ : Reader} (hw : work r = .ok c r₁)
    (hc : r₁.current = .operator .semicolon) :
    closed work r = .ok (some c) { r₁ with program := r₁.program.setLast c } := by
  rw [closed, bind_of_ok hw, current_bind, if_pos hc]
  rfl

theorem closed_of_ne {work : Read Command} {c : Command} {r₁ : Reader} (hw : work r = .ok c r₁)
    (hn : r₁.current ≠ .operator .semicolon) :
    closed work r = .error (failure .semicolon r₁.current) r₁ := by
  rw [closed, bind_of_ok hw, current_bind, if_neg hn]
  rfl

theorem closed_error {work : Read Command} (h : closed work r = .error e r') :
    work r = .error e r' ∨ ∃ c, work r = .ok c r' ∧ r'.current ≠ .operator .semicolon ∧
      e = failure .semicolon r'.current := by
  rcases bind_eq_error h with hw | ⟨c, r₁, hw, hc⟩
  · exact .inl hw
  · rw [current_bind] at hc
    split at hc
    · cases hc
    · next hn =>
      cases hc
      exact .inr ⟨c, hw, hn, rfl⟩

/-- After its first token a statement is over, or it is an assignment or a command that a
semicolon has to close. -/
theorem statement_cases (r : Reader) :
    ∃ r₁, r.Keeps r₁ ∧ ((∃ e, statement r = .error e r₁) ∨ statement r = .ok none r₁ ∨
      (firstToken r.source.room r = .ok (.operator .quote) r₁ ∧
        statement r = closed (assignment r.source.room) r₁) ∨
      statement r = closed (command r.source.room) r₁) := by
  rw [statement, room_bind]
  cases ht : firstToken r.source.room r with
  | error e r₁ =>
    refine ⟨r₁, (frames_firstToken _).keeps_of_error ht, .inl ⟨e, ?_⟩⟩
    exact bind_of_error ht
  | ok first r₁ =>
    refine ⟨r₁, (frames_firstToken _).keeps_of_ok ht, ?_⟩
    rw [bind_of_ok ht]
    cases first with
    | reserved word => exact .inl ⟨_, rfl⟩
    | endOfInput => exact .inr (.inl rfl)
    | operator operator =>
      cases operator with
      | quote => exact .inr (.inr (.inl ⟨rfl, rfl⟩))
      | _ => exact .inr (.inr (.inr rfl))
    | _ => exact .inr (.inr (.inr rfl))

/-- A whole assignment of `c` to `word` begins at `r` and ends at `r'`, and no semicolon stands
behind it. -/
def Unclosed (r : Reader) (word : String) (c : Command) (r' : Reader) : Prop :=
  ∃ r₁, firstToken r.source.room r = .ok (.operator .quote) r₁ ∧
    binding r.source.room r₁ = .ok (word, c) r' ∧ r'.current ≠ .operator .semicolon

/-- How a statement can fail: before anything is written, or at the missing semicolon behind a
whole assignment, whose name is written then. -/
theorem statement_error (h : statement r = .error e r') :
    r.Keeps r' ∨ ∃ word c r₁, Unclosed r word c r₁ ∧ e = failure .semicolon r₁.current ∧
      r' = { r₁ with program := r₁.program.insert word c } := by
  obtain ⟨r₁, hk, ⟨e₁, hs⟩ | hs | ⟨ht, hs⟩ | hs⟩ := statement_cases r
  · rw [hs] at h
    cases h
    exact .inl hk
  · rw [hs] at h
    cases h
  · rw [hs] at h
    rcases closed_error h with hw | ⟨c, hw, hn, he⟩
    · exact .inl (hk.trans ((frames_binding _).keeps_of_error (assignment_error hw)))
    · obtain ⟨word, r₂, hb, rfl⟩ := assignment_ok hw
      exact .inr ⟨word, c, r₂, ⟨r₁, ht, hb, hn⟩, he, rfl⟩
  · rw [hs] at h
    rcases closed_error h with hw | ⟨c, hw, _⟩
    · exact .inl (hk.trans ((frames_command _).keeps_of_error hw))
    · exact .inl (hk.trans ((frames_command _).keeps_of_ok hw))

/-- Without its semicolon an assignment is an error, and still writes its name. -/
theorem statement_of_unclosed {word : String} {c : Command} (h : Unclosed r word c r') :
    statement r = .error (failure .semicolon r'.current)
      { r' with program := r'.program.insert word c } := by
  obtain ⟨r₁, ht, hb, hn⟩ := h
  rw [statement, room_bind, bind_of_ok ht]
  exact closed_of_ne (assignment_of_binding hb) hn

theorem Unclosed.keeps {word : String} {c : Command} (h : Unclosed r word c r') : r.Keeps r' := by
  obtain ⟨r₁, ht, hb, -⟩ := h
  exact ((frames_firstToken _).keeps_of_ok ht).trans ((frames_binding _).keeps_of_ok hb)

/-- The assigned name alone is bound anew. -/
theorem Unclosed.get?_insert {word : String} {c : Command} (h : Unclosed r word c r')
    (name : String) : (r'.program.insert word c).get? name =
      if name = word then some c else r.program.get? name := by
  rw [← h.keeps.program]
  exact r'.program.get?_insert word name c

/-- How a statement can succeed: at the end of the text, or with a command that becomes the last
one and that may have been given a name. -/
theorem statement_ok {c? : Option Command} (h : statement r = .ok c? r') :
    (c? = none ∧ r.Keeps r') ∨ ∃ r₁ r₂ c, c? = some c ∧ r.Keeps r₁ ∧
      ((command r.source.room r₁ = .ok c r₂ ∧
          r' = { r₂ with program := r₂.program.setLast c }) ∨
        ∃ word, binding r.source.room r₁ = .ok (word, c) r₂ ∧
          r' = { r₂ with program := (r₂.program.insert word c).setLast c }) := by
  obtain ⟨r₁, hk, ⟨e₁, hs⟩ | hs | ⟨_, hs⟩ | hs⟩ := statement_cases r
  · rw [hs] at h
    cases h
  · rw [hs] at h
    cases h
    exact .inl ⟨rfl, hk⟩
  · rw [hs] at h
    obtain ⟨c, r₂, hw, -, hc, hr⟩ := closed_ok h
    obtain ⟨word, r₃, hb, rfl⟩ := assignment_ok hw
    exact .inr ⟨r₁, r₃, c, hc, hk, .inr ⟨word, hb, hr⟩⟩
  · rw [hs] at h
    obtain ⟨c, r₂, hw, -, hc, hr⟩ := closed_ok h
    exact .inr ⟨r₁, r₂, c, hc, hk, .inl ⟨hw, hr⟩⟩

/-- A failing statement leaves the last command alone, and every name as well, unless a whole
assignment was read and only its semicolon is missing. Such an assignment always fails, with the
error about the semicolon, and the assigned name alone is bound anew. -/
theorem program_of_statement_error (r : Reader) :
    (∀ e r', statement r = .error e r' → r'.program.last = r.program.last ∧
      ((∀ name, r'.program.get? name = r.program.get? name) ∨
        ∃ word c r₁, Unclosed r word c r₁ ∧ e = failure .semicolon r₁.current ∧
          ∀ name, r'.program.get? name = if name = word then some c else r.program.get? name)) ∧
    ∀ word c r₁, Unclosed r word c r₁ →
      ∃ r', statement r = .error (failure .semicolon r₁.current) r' ∧
        ∀ name, r'.program.get? name = if name = word then some c else r.program.get? name := by
  constructor
  · intro e r' h
    rcases statement_error h with hk | ⟨word, c, r₁, hu, he, rfl⟩
    · rw [hk.program]
      exact ⟨rfl, .inl fun _ => rfl⟩
    · have hlast : r₁.program.last = r.program.last := congrArg Program.last hu.keeps.program
      exact ⟨hlast, .inr ⟨word, c, r₁, hu, he, hu.get?_insert⟩⟩
  · intro word c r₁ hu
    exact ⟨_, statement_of_unclosed hu, hu.get?_insert⟩

/-- A reader of a text in which a bracket stands in the place of the semicolon. -/
def unclosedAssignment : Reader where
  source := { input := "'A' = x )".toList }
  budget := 0
  patience := 0

theorem statement_unclosedAssignment :
    ∃ r', statement unclosedAssignment =
        .error (.unexpected .semicolon (.operator .closeBracket)) r' ∧
      (r'.program.get? "A").isSome = true := by
  have hrun : (stops? statement unclosedAssignment).map
      (fun found => (found.1, (found.2.program.get? "A").isSome)) =
        some (.unexpected .semicolon (.operator .closeBracket), true) := by
    decide +kernel
  obtain ⟨⟨e, r'⟩, hs, hfound⟩ := Option.map_eq_some_iff.mp hrun
  simp only [Prod.mk.injEq] at hfound
  obtain ⟨rfl, hget⟩ := hfound
  exact ⟨r', stops?_eq_some_iff.mp hs, hget⟩

theorem program_of_statement_error_unclosedAssignment :
    ∃ word c r₁, Unclosed unclosedAssignment word c r₁ ∧
      ∃ r', statement unclosedAssignment = .error (failure .semicolon r₁.current) r' ∧
        r'.program.last = unclosedAssignment.program.last ∧
        ∀ name, r'.program.get? name =
          if name = word then some c else unclosedAssignment.program.get? name := by
  obtain ⟨r', hs, ha⟩ := statement_unclosedAssignment
  obtain ⟨hfails, hunclosed⟩ := program_of_statement_error unclosedAssignment
  rcases (hfails _ _ hs).2 with hsame | ⟨word, c, r₁, hu, -, -⟩
  · have hnone : r'.program.get? "A" = none := hsame "A"
    rw [hnone] at ha
    cases ha
  · obtain ⟨r'', hs', hget⟩ := hunclosed word c r₁ hu
    exact ⟨word, c, r₁, hu, r'', hs', (hfails _ _ hs').1, hget⟩

/-- A failing statement can leave a name behind. -/
theorem not_get?_of_statement_error :
    ¬∀ (r r' : Reader) (e : Error), statement r = .error e r' →
      (∀ name, r'.program.get? name = r.program.get? name) ∧
        r'.program.last = r.program.last := by
  intro h
  obtain ⟨r', hs, ha⟩ := statement_unclosedAssignment
  have hnone : r'.program.get? "A" = none := (h unclosedAssignment r' _ hs).1 "A"
  rw [hnone] at ha
  cases ha

end LambdaCalc.Read
