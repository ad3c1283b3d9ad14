import LambdaCalc.Proofs.Statement

namespace LambdaCalc

namespace Program

variable {p : Program} {c c' : Command} {word : String}

theorem holds_insert (h : (p.insert word c).Holds c') : c' = c ∨ p.Holds c' := by
  rcases h with ⟨name, hn⟩ | hl
  · rw [get?_insert] at hn
    split at hn
    · exact .inl (Option.some.inj hn).symm
    · exact .inr (.inl ⟨name, hn⟩)
  · exact .inr (.inr hl)

theorem holds_setLast (h : (p.setLast c).Holds c') : c' = c ∨ p.Holds c' := by
  rcases h with hn | hl
  · exact .inr (.inl hn)
  · exact .inl (Option.some.inj hl).symm

/-- What holds of all commands of a program holds after one of its kind was written. -/
theorem forall_of_write {p' : Program} {P : Command → Prop} (h : ∀ c', p.Holds c' → P c')
    (hc : P c) (hp : ∀ c', p'.Holds c' → c' = c ∨ p.Holds c') : ∀ c', p'.Holds c' → P c' := by
  intro c' hc'
  rcases hp c' hc' with rfl | hc'
  · exact hc
  · exact h c' hc'

end Program

namespace Reader

/-- The command was read on the way from the first reader to the second. -/
def Learns (r r' : Reader) (c : Command) : Prop :=
  ∃ room r₁ r₂, r.Keeps r₁ ∧ Read.command room r₁ = .ok c r₂ ∧ r₂.budget = r'.budget ∧
    r₂.supply = r'.supply

/-- What a statement leaves of a reader: the commands that are new were read on the way. -/
structure Gains (r r' : Reader) : Prop where
  budget : r'.budget = r.budget
  le : r.supply.id ≤ r'.supply.id
  commands : ∀ c, r'.program.Holds c → r.program.Holds c ∨ r.Learns r' c

variable {r r₁ r' : Reader} {room : List Char} {word : String} {c : Command}

namespace Learns

theorem of_command (hk : r.Keeps r₁) (h : Read.command room r₁ = .ok c r') : r.Learns r' c :=
  ⟨room, r₁, r', hk, h, rfl, rfl⟩

theorem of_binding (hk : r.Keeps r₁) (h : Read.binding room r₁ = .ok (word, c) r') :
    r.Learns r' c := by
  obtain ⟨r₂, hk₂, hc⟩ := Read.command_of_binding h
  exact of_command (hk.trans hk₂) hc

theorem wellFormed (h : r.Learns r' c) (hr : r.Sound) : c.term.WellFormed r'.supply.id := by
  obtain ⟨room, r₁, r₂, hk, hc, -, hsupply⟩ := h
  exact hsupply ▸ Read.command_wellFormed (hr.of_keeps hk) hc

end Learns

namespace Gains

theorem of_keeps (h : r.Keeps r') : r.Gains r' :=
  ⟨h.budget, h.le, fun _ hc => .inl (h.program ▸ hc)⟩

theorem write {p : Program} (h : r.Gains r') (hc : r.Learns r' c)
    (hp : ∀ c', p.Holds c' → c' = c ∨ r'.program.Holds c') :
    r.Gains { r' with program := p } :=
  ⟨h.budget, h.le, Program.forall_of_write h.commands (.inr hc) hp⟩

end Gains

theorem Sound.of_gains (h : r.Sound) (hg : r.Gains r') : r'.Sound := by
  intro c hc
  rcases hg.commands c hc with hold | hnew
  · exact (h c hold).mono hg.le
  · exact hnew.wellFormed h

end Reader

namespace Read

variable {r r' : Reader}

/-- A failing statement may have written a name, with a command that it has read. -/
theorem gains_of_statement_error {e : Error} (h : statement r = .error e r') : r.Gains r' := by
  rcases statement_error h with hk | ⟨word, c, r₂, ⟨r₁, ht, hb, -⟩, -, rfl⟩
  · exact .of_keeps hk
  · have hk := (frames_firstToken _).keeps_of_ok ht
    have hgains := Reader.Gains.of_keeps (hk.trans ((frames_binding _).keeps_of_ok hb))
    exact hgains.write (.of_binding hk hb) fun _ => Program.holds_insert

theorem gains_of_statement_ok {c? : Option Command} (h : statement r = .ok c? r') :
    r.Gains r' ∧ ∀ c ∈ c?.toList, r.Learns r' c := by
  rcases statement_ok h with ⟨rfl, hk⟩ | ⟨r₁, r₂, c, rfl, hk, ⟨hc, rfl⟩ | ⟨word, hb, rfl⟩⟩
  · exact ⟨.of_keeps hk, by simp⟩
  · have hgains := Reader.Gains.of_keeps (hk.trans ((frames_command _).keeps_of_ok hc))
    have hlearns : r.Learns r₂ c := .of_command hk hc
    exact ⟨hgains.write hlearns fun _ => Program.holds_setLast,
      List.forall_mem_singleton.mpr hlearns⟩
  · have hgains := Reader.Gains.of_keeps (hk.trans ((frames_binding _).keeps_of_ok hb))
    have hlearns : r.Learns r₂ c := .of_binding hk hb
    have hnamed : r.Gains { r₂ with program := r₂.program.insert word c } :=
      hgains.write hlearns fun _ => Program.holds_insert
    exact ⟨hnamed.write hlearns fun _ => Program.holds_setLast,
      List.forall_mem_singleton.mpr hlearns⟩

theorem sound_of_statement_error {e : Error} (hr : r.Sound) (h : statement r = .error e r') :
    r'.Sound ∧ r.supply.id ≤ r'.supply.id := by
  have hgains := gains_of_statement_error h
  exact ⟨hr.of_gains hgains, hgains.le⟩

theorem sound_of_statement_ok {c? : Option Command} (hr : r.Sound)
    (h : statement r = .ok c? r') :
    r'.Sound ∧ r.supply.id ≤ r'.supply.id ∧
      ∀ c ∈ c?.toList, c.term.WellFormed r'.supply.id := by
  obtain ⟨hgains, hlearns⟩ := gains_of_statement_ok h
  exact ⟨hr.of_gains hgains, hgains.le, fun c hc => (hlearns c hc).wellFormed hr⟩

end Read

/-- How a caller gets at a command: it was returned to it, the last one first, or the program
holds it. -/
inductive Handle
  | returned (index : Nat)
  | named (name : String)
  | last
  deriving DecidableEq

inductive Action
  | statement
  | skipLine
  | execute (which : Handle)
  deriving DecidableEq

/-- A reader, with all commands that it returned and all outcomes of commands that were executed. -/
structure History where
  reader : Reader
  returned : List Command := []
  outcomes : List Term := []
  deriving DecidableEq

namespace History

/-- Nothing was read of the text. -/
def start (source : Source) (supply : Supply) (budget patience : Nat) : History where
  reader := { source := source, supply := supply, budget := budget, patience := patience }

def command? (h : History) : Handle → Option Command
  | .returned index => h.returned[index]?
  | .named name => h.reader.program.get? name
  | .last => h.reader.program.last

/-- A failure is reported to the caller, who goes on with the reader that it leaves. -/
def read (h : History) : History :=
  match Read.statement h.reader with
  | .ok c? r => { h with reader := r, returned := c?.toList ++ h.returned }
  | .error _ r => { h with reader := r }

def perform (h : History) (c : Command) : History :=
  match c.execute h.reader.patience h.reader.supply with
  | .ok t s => { h with reader := { h.reader with supply := s }, outcomes := t :: h.outcomes }
  | .error _ s => { h with reader := { h.reader with supply := s } }

def skipLine (h : History) : History :=
  { h with reader := { h.reader with source := h.reader.source.skipLine } }

def step (h : History) : Action → History
  | .statement => h.read
  | .skipLine => h.skipLine
  | .execute which =>
    match h.command? which with
    | some c => h.perform c
    | none => h

def run (h : History) (actions : List Action) : History := actions.foldl step h

/-- The terms that a caller can see: in a command of the program, in a command that was returned,
or as an outcome. -/
def Shows (h : History) (t : Term) : Prop :=
  (∃ c, h.reader.program.Holds c ∧ c.term = t) ∨ (∃ c ∈ h.returned, c.term = t) ∨
    t ∈ h.outcomes

/-- What holds after every action. -/
structure Sound (h : History) : Prop where
  program : h.reader.Sound
  returned : ∀ c ∈ h.returned, c.term.WellFormed h.reader.supply.id
  outcomes : ∀ t ∈ h.outcomes, t.WellFormed h.reader.supply.id

theorem sound_start (source : Source) (supply : Supply) (budget patience : Nat) :
    (start source supply budget patience).Sound := by
  refine ⟨?_, by simp [start], by simp [start]⟩
  rintro c (⟨name, hn⟩ | hl)
  · cases hn
  · cases hl

namespace Sound

variable {h : History}

/-- What was seen before stays well formed while the supply grows. -/
theorem of_reader {r : Reader} (hs : h.Sound) (hr : r.Sound)
    (hle : h.reader.supply.id ≤ r.supply.id) : Sound { h with reader := r } :=
  ⟨hr, fun c hc => (hs.returned c hc).mono hle, fun t ht => (hs.outcomes t ht).mono hle⟩

theorem read (hs : h.Sound) : h.read.Sound := by
  unfold History.read
  cases hr : Read.statement h.reader with
  | ok c? r =>
    obtain ⟨hsound, hle, hc⟩ := Read.sound_of_statement_ok hs.program hr
    have hold := hs.of_reader hsound hle
    refine ⟨hsound, ?_, hold.outcomes⟩
    intro c hm
    rcases List.mem_append.mp hm with hm | hm
    · exact hc c hm
    · exact hold.returned c hm
  | error e r =>
    obtain ⟨hsound, hle⟩ := Read.sound_of_statement_error hs.program hr
    exact hs.of_reader hsound hle

theorem skipLine (hs : h.Sound) : h.skipLine.Sound := ⟨hs.program, hs.returned, hs.outcomes⟩

theorem perform {c : Command} (hs : h.Sound) (hc : c.term.WellFormed h.reader.supply.id) :
    (h.perform c).Sound := by
  have hle := c.le_leaves_execute h.reader.patience h.reader.supply
  unfold History.perform
  rw [Attempt.leaves] at hle
  cases he : c.execute h.reader.patience h.reader.supply with
  | ok t s =>
    rw [he] at hle
    have hold := hs.of_reader (hs.program.of_keeps (.draw hle)) hle
    refine ⟨hold.program, hold.returned, ?_⟩
    intro u hu
    rcases List.mem_cons.mp hu with rfl | hu
    · exact (Command.execute_ok he hc).1
    · exact hold.outcomes u hu
  | error e s =>
    rw [he] at hle
    exact hs.of_reader (hs.program.of_keeps (.draw hle)) hle

theorem command? (hs : h.Sound) {which : Handle} {c : Command} (hc : h.command? which = some c) :
    c.term.WellFormed h.reader.supply.id := by
  cases which with
  | returned index => exact hs.returned c (List.mem_of_getElem? hc)
  | named name => exact hs.program c (.inl ⟨name, hc⟩)
  | last => exact hs.program c (.inr hc)

theorem step (hs : h.Sound) (action : Action) : (h.step action).Sound := by
  cases action with
  | statement => exact hs.read
  | skipLine => exact hs.skipLine
  | execute which =>
    simp only [History.step]
    cases hc : h.command? which with
    | some c => exact hs.perform (hs.command? hc)
    | none => exact hs

theorem run (hs : h.Sound) (actions : List Action) : (h.run actions).Sound := by
  induction actions generalizing h with
  | nil => exact hs
  | cons action actions ih => exact ih (hs.step action)

theorem wellScoped {t : Term} (hs : h.Sound) (ht : h.Shows t) :
    t.WellScoped h.reader.supply.id := by
  rcases ht with ⟨c, hc, rfl⟩ | ⟨c, hc, rfl⟩ | ht
  · exact (hs.program c hc).wellScoped
  · exact (hs.returned c hc).wellScoped
  · exact (hs.outcomes t ht).wellScoped

end Sound

/-- However a reader is used, all terms that it shows are well scoped, below its supply. -/
theorem wellScoped_run (source : Source) (supply : Supply) (budget patience : Nat)
    (actions : List Action) :
    ∀ t, ((start source supply budget patience).run actions).Shows t →
      t.WellScoped ((start source supply budget patience).run actions).reader.supply.id :=
  fun _ ht => ((sound_start source supply budget patience).run actions).wellScoped ht

/-- A name is put into a term twice and the term is reduced, then the name is executed alone. -/
def splicing : History :=
  (start { input := "'K' = \\x.\\y.x; (K) \\y.(K) y >;".toList } {} 0 0).run
    [.statement, .statement, .execute .last, .execute (.named "K")]

theorem wellScoped_run_splicing :
    splicing.outcomes.length = 2 ∧
      ∃ t ∈ splicing.outcomes, t.WellScoped splicing.reader.supply.id := by
  have hlength : splicing.outcomes.length = 2 := by decide +kernel
  obtain ⟨t, ht⟩ := List.exists_mem_of_length_pos (hlength ▸ Nat.zero_lt_two)
  have hrun := wellScoped_run { input := "'K' = \\x.\\y.x; (K) \\y.(K) y >;".toList } {} 0 0
    [.statement, .statement, .execute .last, .execute (.named "K")] t
  rw [← splicing] at hrun
  exact ⟨hlength, t, ht, hrun (.inr (.inr ht))⟩

end History

end LambdaCalc
