import LambdaCalc.Console
import LambdaCalc.Proofs.Agreement
import LambdaCalc.Proofs.Continuation

namespace LambdaCalc

/-- Behind the last statement nothing is left of the text. -/
theorem Read.input_of_statement_none {r r' : Reader} (h : statement r = .ok none r') :
    r'.source.input = [] := by
  have hroom : r.source.input.length < r.source.room.length := Nat.lt_succ_self _
  have hbegun := begun_of_room hroom
  rw [statement, room_bind] at h
  obtain ⟨first, r₁, hfirst, h⟩ := bind_eq_ok h
  rw [hfirst] at hbegun
  obtain ⟨hcurrent, tokens, hl⟩ := hbegun
  split at h
  · cases h
  · cases h
    obtain ⟨s, -, hn⟩ := hl.exists_reaches
    have hread := Source.read_of_next hn
    have hfound : (Token.read s.isReserved s.input).1 = .ok .endOfInput := by
      rw [hread]
      exact congrArg Except.ok hcurrent
    rw [Token.read, Token.skipBlanks_of_read_endOfInput hfound] at hread
    exact (congrArg Prod.snd hread).symm
  · have hclosed (work : Read Command) : closed work r₁ ≠ .ok none r' := by
      intro hw
      obtain ⟨c, r₂, -, -, hnone, -⟩ := closed_ok hw
      cases hnone
    change (if first = .operator .quote then closed (assignment r.source.room)
      else closed (command r.source.room)) r₁ = _ at h
    split at h
    · exact absurd h (hclosed _)
    · exact absurd h (hclosed _)

/-- The last line of the text is finished. -/
def Lined (text : List Char) : Prop := ∀ c ∈ text.getLast?, c = '\n'

namespace Lined

variable {a b text : List Char}

theorem nil : Lined [] := nofun

theorem append (ha : Lined a) (hb : Lined b) : Lined (a ++ b) := by
  intro c hc
  rw [List.getLast?_append, Option.mem_def, Option.or_eq_some_iff] at hc
  rcases hc with hc | ⟨-, hc⟩
  · exact hb c hc
  · exact ha c hc

theorem suffix (h : Lined text) (hs : a <:+ text) : Lined a := by
  obtain ⟨front, rfl⟩ := hs
  intro c hc
  refine h c ?_
  rw [List.getLast?_append, hc]
  rfl

theorem mem (h : Lined text) (hne : text ≠ []) : '\n' ∈ text := by
  have hlast := List.getLast?_eq_some_getLast hne
  have hfeed := h _ hlast
  exact hfeed ▸ List.getLast_mem hne

theorem join (lines : List String) : Lined (Text.Lines.join lines) := by
  induction lines with
  | nil => exact nil
  | cons line lines ih =>
    have hline : Lined (line.toList ++ ['\n']) := by
      intro c hc
      simpa using hc.symm
    exact hline.append ih

end Lined

theorem afterLine_suffix (input : List Char) : afterLine input <:+ input := by
  induction input with
  | nil => exact List.suffix_refl _
  | cons c input ih =>
    rw [afterLine]
    split
    · exact List.suffix_cons c input
    · exact ih.trans (List.suffix_cons c input)

/-- The same turn, but the text of a session that goes on is longer. -/
def Turn.extend : Turn → List Char → Turn
  | next output session, rest => .next output (session.extend rest)
  | stop output ending, _ => .stop output ending

namespace Session

variable {s next : Session} {output : String} {ending : Ending}

theorem input_read_suffix (s : Session) :
    s.read.2.reader.source.input <:+ s.reader.source.input := by
  obtain ⟨n, hn, -⟩ := Read.statement_withSource s.reader (Nat.le_refl _)
  rw [input_read, hn]
  exact Source.input_after_suffix n s.reader.source

theorem input_turn_suffix (h : s.turn = .next output next) :
    next.reader.source.input <:+ s.reader.source.input := by
  rw [input_of_respond h]
  refine List.IsSuffix.trans ?_ (input_read_suffix s)
  cases s.read.1 with
  | ok c? => exact List.suffix_refl _
  | error e => exact afterLine_suffix _

/-- If something is left of the line behind a statement, the turn is the same whatever comes in. -/
theorem turn_extend (hleft : s.read.2.reader.source.input ≠ [])
    (hlined : Lined s.reader.source.input) (rest : List Char) :
    (s.extend rest).turn = s.turn.extend rest := by
  have hfeed := (hlined.suffix (input_read_suffix s)).mem hleft
  have hresume : resume s.read.1 (s.read.2.reader.source.input ++ rest) =
      resume s.read.1 s.read.2.reader.source.input ++ rest := by
    cases s.read.1 with
    | ok c? => rfl
    | error e => exact afterLine_append_of_mem hfeed rest
  have hturn : (s.extend rest).turn =
      s.turn.withInput (resume s.read.1 (s.read.2.reader.source.input ++ rest)) := by
    rw [turn, read_append hleft]
    exact respond_withInput s.read.2 s.read.1 _
  rw [hturn, hresume]
  cases ht : s.turn with
  | stop output ending => rfl
  | next output next =>
    rw [← input_of_respond ht]
    rfl

/-- A session that is left in front of more text was asked to. -/
theorem ending_of_left (ht : s.turn = .stop output ending)
    (hleft : s.read.2.reader.source.input ≠ []) : ending = .exit := by
  rcases turn_eq_stop_iff.mp ht with ⟨hread, -⟩ | ⟨-, -, -, -, hending⟩
  · cases hs : Read.statement s.reader with
    | error e r' =>
      rw [read_of_error hs] at hread
      cases hread
    | ok c? r' =>
      rw [read_of_ok hs] at hread hleft
      cases hread
      exact absurd (Read.input_of_statement_none hs) hleft
  · exact hending

theorem extend_nil (s : Session) : s.extend [] = s := by
  simp only [extend, List.append_nil]

theorem extend_extend (s : Session) (a b : List Char) :
    (s.extend a).extend b = s.extend (a ++ b) := by
  simp only [extend, List.append_assoc]

end Session

namespace Text.Lines

/-- The bytes as they come in: cut behind every line feed. `line` is as for `split`. -/
def chunks (line : List UInt8) : List UInt8 → List (List UInt8)
  | [] => if line.isEmpty then [] else [line.reverse]
  | 10 :: bytes => (10 :: line).reverse :: chunks [] bytes
  | b :: bytes => chunks (b :: line) bytes

/-- The lines in front of the first chunk that is not UTF-8, and whether there is no such chunk. -/
def heard : List (List UInt8) → List String × Bool
  | [] => ([], true)
  | chunk :: later =>
    if (read chunk).2 then ((read chunk).1 ++ (heard later).1, (heard later).2) else ([], false)

theorem join_append (a b : List String) : join (a ++ b) = join a ++ join b := by
  rw [join, List.flatMap_append]
  rfl

theorem chunks_feed (line bytes : List UInt8) :
    chunks line (10 :: bytes) = (10 :: line).reverse :: chunks [] bytes := rfl

theorem chunks_of_ne {b : UInt8} (h : b ≠ 10) (line bytes : List UInt8) :
    chunks line (b :: bytes) = chunks (b :: line) bytes := by
  rw [chunks]
  exact h

theorem ne_nil_of_mem_chunks {line bytes chunk : List UInt8} (h : chunk ∈ chunks line bytes) :
    chunk ≠ [] := by
  induction bytes generalizing line with
  | nil =>
    rw [chunks] at h
    split at h
    · cases h
    · next hline =>
      obtain rfl := List.mem_singleton.mp h
      simpa using hline
  | cons b bytes ih =>
    by_cases hb : b = 10
    · subst hb
      rw [chunks_feed] at h
      rcases List.mem_cons.mp h with rfl | h
      · simp
      · exact ih h
    · rw [chunks_of_ne hb] at h
      exact ih h

theorem decode_cons (line : List UInt8) (lines : List (List UInt8)) :
    decode (line :: lines) = if (decode [line]).2 then
      ((decode [line]).1 ++ (decode lines).1, (decode lines).2) else ([], false) := by
  rw [decode, decode]
  cases String.fromUTF8? ⟨line.toArray⟩ with
  | none => rfl
  | some text => rfl

/-- The chunks hold the lines of the bytes. -/
theorem heard_chunks {line : List UInt8} (hline : 10 ∉ line) (bytes : List UInt8) :
    heard (chunks line bytes) = decode (split line bytes) := by
  -- what a chunk holds, when `line` was read of it
  have hread {line : List UInt8} (h : 10 ∉ line) (rest : List UInt8) :
      read (line.reverse ++ rest) = decode (split line rest) := by
    rw [read, split_append (by simpa using h), List.reverse_reverse, List.append_nil]
  induction bytes generalizing line with
  | nil =>
    cases line with
    | nil => rfl
    | cons b line =>
      have hlast := hread hline []
      have hchunks : chunks (b :: line) [] = [(b :: line).reverse] := rfl
      have hsplit : split (b :: line) [] = [(b :: line).reverse] := rfl
      rw [List.append_nil, hsplit] at hlast
      rw [hchunks, hsplit, heard, hlast]
      exact (decode_cons _ []).symm
  | cons b bytes ih =>
    by_cases hb : b = 10
    · subst hb
      have hchunk : read (10 :: line).reverse = decode [finished line] := by
        rw [List.reverse_cons]
        exact hread hline [10]
      rw [chunks_feed, split_feed, heard, hchunk, ih List.not_mem_nil]
      exact (decode_cons _ _).symm
    · rw [chunks_of_ne hb, split_of_ne hb]
      exact ih (by simpa [hline] using Ne.symm hb)

end Text.Lines

open CommandLine (Failure sessionFailure holdSession)
open Session (prompt turns)

namespace Console

variable {c : Console} {line : List UInt8} {lines : List (List UInt8)} {output : String}
  {failure : Option Failure}

/-- What a console writes before it is left, when these lines come in, and the failure. -/
inductive Writes : Console → List (List UInt8) → String → Option Failure → Prop
  | asked {c : Console} {line : List UInt8} {lines : List (List UInt8)} {output : String}
      {failure : Option Failure} :
      c.move = .ask → Writes (c.hear line) lines output failure →
        Writes c (line :: lines) output failure
  | ended {c : Console} {output : String} {failure : Option Failure} :
      c.move = .ask → Writes (c.hear []) [] output failure → Writes c [] output failure
  | answered {c next : Console} {lines : List (List UInt8)} {output later : String}
      {failure : Option Failure} :
      c.move = .answer output next → Writes next lines later failure →
        Writes c lines (output ++ prompt ++ later) failure
  | left {c : Console} {lines : List (List UInt8)} {output : String} {failure : Option Failure} :
      c.move = .leave output failure → Writes c lines output failure

theorem Writes.unique {output' : String} {failure' : Option Failure}
    (h : c.Writes lines output failure) (h' : c.Writes lines output' failure') :
    output' = output ∧ failure' = failure := by
  induction h generalizing output' with
  | asked hm _ ih =>
    cases h' with
    | asked _ h' => exact ih h'
    | answered hm' _ => cases hm.symm.trans hm'
    | left hm' => cases hm.symm.trans hm'
  | ended hm _ ih =>
    cases h' with
    | ended _ h' => exact ih h'
    | answered hm' _ => cases hm.symm.trans hm'
    | left hm' => cases hm.symm.trans hm'
  | answered hm _ ih =>
    cases h' with
    | asked hm' _ => cases hm.symm.trans hm'
    | ended hm' _ => cases hm.symm.trans hm'
    | answered hm' h' =>
      cases hm.symm.trans hm'
      obtain ⟨rfl, rfl⟩ := ih h'
      exact ⟨rfl, rfl⟩
    | left hm' => cases hm.symm.trans hm'
  | left hm =>
    cases h' with
    | asked hm' _ => cases hm.symm.trans hm'
    | ended hm' _ => cases hm.symm.trans hm'
    | answered hm' _ => cases hm.symm.trans hm'
    | left hm' =>
      cases hm.symm.trans hm'
      exact ⟨rfl, rfl⟩

/-- A console asks for a line only when it has read all of the text at hand. -/
def Asks (c : Console) : Prop :=
  c.listening = true ∧ c.session.read.2.reader.source.input = []

theorem move_of_asks (h : c.Asks) : c.move = .ask := by
  obtain ⟨hlistening, hleft⟩ := h
  simp [move, hlistening, hleft]

theorem move_of_not_asks (h : ¬c.Asks) :
    (∀ output s, c.session.turn = .next output s →
        c.move = .answer output { c with session := s }) ∧
      ∀ output ending, c.session.turn = .stop output ending →
        c.move = .leave output (sessionFailure c.complete ending) := by
  have hno : ¬(c.listening && c.session.read.2.reader.source.input.isEmpty) = true := by
    simpa [Asks] using h
  have hmove : c.move = _ := if_neg hno
  constructor
  · intro output s ht
    rw [Session.turn] at ht
    rw [hmove, ht]
  · intro output ending ht
    rw [Session.turn] at ht
    rw [hmove, ht]

/-- Behind the prompt a console writes what these turns write, and it is left as they end. -/
def Delivers (c : Console) (lines : List (List UInt8)) (outcome : List String × Ending)
    (complete : Bool) : Prop :=
  ∃ output, String.join outcome.1 = prompt ++ output ∧
    c.Writes lines output (sessionFailure complete outcome.2)

theorem Delivers.of_asks {outcome : List String × Ending} {complete : Bool}
    (h : c.Asks) (hlater : (c.hear line).Delivers lines outcome complete) :
    c.Delivers (line :: lines) outcome complete := by
  obtain ⟨output, houtput, hwrites⟩ := hlater
  exact ⟨output, houtput, .asked (move_of_asks h) hwrites⟩

/-- A console that does not ask takes the turn of its session. That is the turn of a session with
more text as well, so the one follows the other if it does so after the turn. -/
theorem delivers_of_turn {s : Session} {n : Nat} {complete : Bool} {rest : List Char}
    (h : ¬c.Asks) (hturn : s.turn = c.session.turn.extend rest)
    (hnext : ∀ output session, c.session.turn = .next output session →
      Delivers { c with session := session } lines (turns n (session.extend rest)) complete)
    (hstop : ∀ output ending, c.session.turn = .stop output ending →
      sessionFailure complete ending = sessionFailure c.complete ending) :
    c.Delivers lines (turns (n + 1) s) complete := by
  obtain ⟨hanswer, hleave⟩ := move_of_not_asks h
  cases ht : c.session.turn with
  | stop output ending =>
    rw [ht] at hturn
    have hturns : turns (n + 1) s = ([prompt ++ output], ending) := by
      rw [turns, hturn]
      rfl
    rw [hturns]
    refine ⟨output, by simp, ?_⟩
    rw [hstop output ending ht]
    exact .left (hleave output ending ht)
  | next output session =>
    rw [ht] at hturn
    obtain ⟨later, hlater, hwrites⟩ := hnext output session ht
    rw [Session.turns_of_next hturn]
    refine ⟨output ++ prompt ++ later, ?_, .answered (hanswer output session ht) hwrites⟩
    rw [String.join_cons, hlater]
    simp only [String.append_assoc]

/-- Without a line to come the session goes on with the text at hand. -/
theorem delivers_of_closed {n : Nat} (hclosed : c.listening = false)
    (hn : c.session.reader.source.input.length < n) :
    c.Delivers lines (turns n c.session) c.complete := by
  induction n generalizing c with
  | zero => exact absurd hn (Nat.not_lt_zero _)
  | succ n ih =>
    have hasks : ¬c.Asks := by simp [Asks, hclosed]
    have hturn : c.session.turn = c.session.turn.extend [] := by
      cases c.session.turn with
      | stop output ending => rfl
      | next output session => rw [Turn.extend, Session.extend_nil]
    refine delivers_of_turn hasks hturn (fun output session ht => ?_) fun _ _ _ => rfl
    have hless := Session.length_lt_of_turn ht
    rw [Session.extend_nil]
    exact ih hclosed (by dsimp only; omega)

/-- Lines can still come in, and no line of the text at hand is unfinished. -/
structure Open (c : Console) : Prop where
  listening : c.listening = true
  complete : c.complete = true
  lined : Lined c.session.reader.source.input

/-- The session with all the text that is to come. -/
def whole (c : Console) (lines : List (List UInt8)) : Session :=
  c.session.extend (Text.Lines.join (Text.Lines.heard lines).1)

theorem hear_of_unreadable (hne : line ≠ []) (hline : (Text.Lines.read line).2 = false) :
    c.hear line = { c with listening := false, complete := false } ∧
      c.whole (line :: lines) = c.session ∧ (Text.Lines.heard (line :: lines)).2 = false := by
  have hno : ¬(Text.Lines.read line).2 = true := by simp [hline]
  rw [whole, Text.Lines.heard, if_neg hno, hear, if_neg (by simpa using hne), if_neg hno]
  exact ⟨rfl, c.session.extend_nil, rfl⟩

namespace Open

theorem start (budget patience : Nat) : (Console.start budget patience).Open := ⟨rfl, rfl, .nil⟩

theorem next {session : Session} (h : c.Open) (ht : c.session.turn = .next output session) :
    Open { c with session := session } :=
  ⟨h.listening, h.complete, h.lined.suffix (Session.input_turn_suffix ht)⟩

theorem hear (h : c.Open) (hne : line ≠ [])
    (hline : (Text.Lines.read line).2 = true) :
    (c.hear line).Open ∧ (c.hear line).whole lines = c.whole (line :: lines) ∧
      (Text.Lines.heard (line :: lines)).2 = (Text.Lines.heard lines).2 := by
  have hhear : c.hear line =
      { c with session := c.session.extend (Text.Lines.join (Text.Lines.read line).1) } := by
    rw [Console.hear, if_neg (by simpa using hne), if_pos hline]
  rw [hhear]
  refine ⟨⟨h.listening, h.complete, h.lined.append (.join _)⟩, ?_⟩
  rw [whole, whole, Text.Lines.heard, if_pos hline, Text.Lines.join_append]
  exact ⟨c.session.extend_extend _ _, rfl⟩

/-- A turn for which no line is asked is a turn on the whole text. -/
theorem delivers_of_turn {n : Nat} (h : c.Open) (hasks : ¬c.Asks)
    (hnext : ∀ output session, c.session.turn = .next output session →
      (c.whole lines).turn = .next output (Console.whole { c with session := session } lines) →
        Delivers { c with session := session } lines
          (turns n (Console.whole { c with session := session } lines))
          (Text.Lines.heard lines).2) :
    c.Delivers lines (turns (n + 1) (c.whole lines)) (Text.Lines.heard lines).2 := by
  have hleft : c.session.read.2.reader.source.input ≠ [] := fun hleft =>
    hasks ⟨h.listening, hleft⟩
  have hturn : (c.whole lines).turn = c.session.turn.extend _ :=
    Session.turn_extend hleft h.lined _
  refine Console.delivers_of_turn hasks hturn (fun output session ht => ?_)
    fun output ending ht => ?_
  · rw [ht] at hturn
    exact hnext output session ht hturn
  · obtain rfl := Session.ending_of_left ht hleft
    simp [sessionFailure]

end Open

/-- While lines come in a console delivers what the session on the whole text does. -/
theorem Open.delivers {n : Nat} (h : c.Open) (hlines : ∀ line ∈ lines, line ≠ [])
    (hn : (c.whole lines).reader.source.input.length < n) :
    c.Delivers lines (turns n (c.whole lines)) (Text.Lines.heard lines).2 := by
  -- the outer induction is on the turns, the inner one on the lines that a single turn asks for
  induction n generalizing c lines with
  | zero => exact absurd hn (Nat.not_lt_zero _)
  | succ n ih =>
    induction lines generalizing c with
    | nil =>
      by_cases hasks : c.Asks
      · have hwhole : c.whole [] = c.session := c.session.extend_nil
        rw [hwhole] at hn ⊢
        have hclosed : (c.hear []).Delivers [] (turns (n + 1) c.session) c.complete :=
          delivers_of_closed rfl hn
        obtain ⟨output, houtput, hwrites⟩ := hclosed
        refine ⟨output, houtput, .ended (move_of_asks hasks) ?_⟩
        rw [h.complete] at hwrites
        exact hwrites
      · refine h.delivers_of_turn hasks fun output session ht hturn => ?_
        have hless := Session.length_lt_of_turn hturn
        exact ih (h.next ht) hlines (by omega)
    | cons line lines ihLines =>
      by_cases hasks : c.Asks
      · have hne : line ≠ [] := hlines line List.mem_cons_self
        have hlater : ∀ line ∈ lines, line ≠ [] := fun line hm => hlines line (.tail _ hm)
        refine .of_asks hasks ?_
        cases hline : (Text.Lines.read line).2 with
        | true =>
          obtain ⟨hopen, hwhole, hheard⟩ := h.hear hne hline
          rw [← hwhole] at hn ⊢
          rw [hheard]
          exact ihLines hopen hlater hn
        | false =>
          obtain ⟨hhear, hwhole, hheard⟩ := hear_of_unreadable hne hline
          rw [hwhole] at hn ⊢
          rw [hhear, hheard]
          exact delivers_of_closed rfl hn
      · refine h.delivers_of_turn hasks fun output session ht hturn => ?_
        have hless := Session.length_lt_of_turn hturn
        exact ih (h.next ht) hlines (by omega)

/-- A console at which the bytes come in line by line is left in the end. Behind the prompt, which
the program has written by then, it writes what a session on these bytes writes. -/
theorem exists_writes (bytes : List UInt8) (budget patience : Nat) :
    ∃ output failure, holdSession patience bytes budget = (prompt ++ output, failure) ∧
      (start budget patience).Writes (Text.Lines.chunks [] bytes) output failure := by
  have hheard : Text.Lines.heard (Text.Lines.chunks [] bytes) = Text.Lines.read bytes :=
    Text.Lines.heard_chunks List.not_mem_nil bytes
  have hwhole : (start budget patience).whole (Text.Lines.chunks [] bytes) =
      .start (Text.Lines.join (Text.Lines.read bytes).1) budget patience := by
    rw [whole, hheard]
    rfl
  have hlines : ∀ chunk ∈ Text.Lines.chunks [] bytes, chunk ≠ [] :=
    fun _ => Text.Lines.ne_nil_of_mem_chunks
  have hdelivers := (Open.start budget patience).delivers hlines (Nat.lt_succ_self _)
  rw [hwhole, hheard] at hdelivers
  obtain ⟨output, houtput, hwrites⟩ := hdelivers
  exact ⟨output, _, Prod.ext houtput rfl, hwrites⟩

theorem writes_iff (bytes : List UInt8) (budget patience : Nat) :
    (start budget patience).Writes (Text.Lines.chunks [] bytes) output failure ↔
      holdSession patience bytes budget = (prompt ++ output, failure) := by
  obtain ⟨written, failed, hhold, hwrites⟩ := exists_writes bytes budget patience
  rw [hhold]
  constructor
  · intro h
    obtain ⟨rfl, rfl⟩ := hwrites.unique h
    rfl
  · intro h
    obtain ⟨houtput, rfl⟩ := Prod.mk.inj h
    obtain rfl := (String.append_right_inj prompt).mp houtput
    exact hwrites

end Console

end LambdaCalc
