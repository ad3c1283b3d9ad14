import LambdaCalc.Proofs.Feeding

namespace LambdaCalc

namespace Text.Lines

variable {lines : List String} {line bytes front bad later : List UInt8}

theorem fromUTF8?_eq_none_iff :
    String.fromUTF8? ⟨bytes.toArray⟩ = none ↔ ∀ text, bytes ≠ encode text := by
  constructor
  · rintro h text rfl
    rw [fromUTF8?_encode] at h
    cases h
  · intro h
    rw [String.fromUTF8?]
    split
    · next hvalid =>
      have hbytes := toUTF8_eq_encode (String.fromUTF8 _ hvalid)
      exact absurd hbytes (h _)
    · rfl

/-- A carriage return at the end has no say in whether a line is UTF-8. -/
theorem ne_encode_finished (h : ∀ text, bad ≠ encode text) (text : List Char) :
    finished bad.reverse ≠ encode text := by
  intro hfinished
  unfold finished at hfinished
  split at hfinished
  · next front hreturn =>
    have hbad : bad = encode text ++ [13] := by
      rw [List.reverse_eq_iff.mp hreturn, List.reverse_cons, hfinished]
    have hencode : encode (text ++ ['\r']) = encode text ++ [13] := List.flatMap_append
    exact h (text ++ ['\r']) (hbad.trans hencode.symm)
  · exact h text ((List.reverse_reverse bad).symm.trans hfinished)

/-- The line behind these lines is the first one that is not UTF-8. -/
def UnreadableAfter (lines : List String) (bytes : List UInt8) : Prop :=
  ∃ front bad later, bytes = front ++ bad ++ later ∧
    (read front = (lines, true) ∧ ∀ b ∈ front.getLast?, b = 10) ∧
    (10 ∉ bad ∧ ∀ text, bad ≠ encode text) ∧ ∀ b ∈ later.head?, b = 10

theorem decode_append {a b : List (List UInt8)} (h : (decode a).2 = true) :
    decode (a ++ b) = ((decode a).1 ++ (decode b).1, (decode b).2) := by
  induction a with
  | nil => rfl
  | cons line a ih =>
    rw [decode_cons] at h
    split at h
    · next hline =>
      rw [List.cons_append, decode_cons, decode_cons line a, if_pos hline, if_pos hline, ih h,
        List.append_assoc]
    · cases h

/-- Lines that are all finished have nothing to do with the bytes that follow. -/
theorem split_append_of_finished (hlast : ∀ b ∈ front.getLast?, b = 10)
    (hline : front = [] → line = []) (rest : List UInt8) :
    split line (front ++ rest) = split line front ++ split [] rest := by
  induction front generalizing line with
  | nil =>
    rw [hline rfl]
    rfl
  | cons b front ih =>
    rw [List.getLast?_cons] at hlast
    have hlater : ∀ b ∈ front.getLast?, b = 10 := by
      intro b hm
      exact hlast b (by rw [hm]; rfl)
    by_cases hb : b = 10
    · subst hb
      rw [List.cons_append, split_feed, split_feed, ih hlater fun _ => rfl]
      rfl
    · rw [List.cons_append, split_of_ne hb, split_of_ne hb, ih hlater]
      rintro rfl
      exact absurd (hlast b rfl) hb

theorem decode_of_unreadable (hfeed : 10 ∉ bad) (hbad : ∀ text, bad ≠ encode text)
    (hlater : ∀ b ∈ later.head?, b = 10) : decode (split [] (bad ++ later)) = ([], false) := by
  rw [split_append hfeed, List.append_nil]
  cases later with
  | nil =>
    have hne : bad ≠ [] := hbad []
    rw [split, if_neg (by simpa using hne), List.reverse_reverse, decode,
      fromUTF8?_eq_none_iff.mpr hbad]
  | cons b later =>
    obtain rfl := hlater b rfl
    rw [split_feed, decode, fromUTF8?_eq_none_iff.mpr (ne_encode_finished hbad)]

theorem read_of_unreadableAfter (h : UnreadableAfter lines bytes) :
    read bytes = (lines, false) := by
  obtain ⟨front, bad, later, rfl, ⟨hread, hlast⟩, ⟨hfeed, hbad⟩, hlater⟩ := h
  rw [read] at hread
  rw [read, List.append_assoc, split_append_of_finished hlast fun _ => rfl,
    decode_append (by rw [hread]), decode_of_unreadable hfeed hbad hlater, hread, List.append_nil]

/-- Where reading stops the bytes are cut into the lines in front, the line that is not UTF-8 and
the bytes behind it. -/
theorem unreadableAfter_of_decode (hline : 10 ∉ line)
    (h : decode (split line bytes) = (lines, false)) :
    UnreadableAfter lines (line.reverse ++ bytes) := by
  have hfeed {line : List UInt8} (h : 10 ∉ line) : 10 ∉ line.reverse := by simpa using h
  induction bytes generalizing line lines with
  | nil =>
    rw [split] at h
    split at h
    · cases h
    · rw [decode] at h
      cases hbad : String.fromUTF8? ⟨line.reverse.toArray⟩ with
      | some text =>
        rw [hbad] at h
        cases h
      | none =>
        rw [hbad] at h
        cases h
        exact ⟨[], line.reverse, [], rfl, ⟨rfl, by simp⟩,
          ⟨hfeed hline, fromUTF8?_eq_none_iff.mp hbad⟩, by simp⟩
  | cons b bytes ih =>
    by_cases hb : b = 10
    · subst hb
      rw [split_feed, decode] at h
      cases hfinished : String.fromUTF8? ⟨(finished line).toArray⟩ with
      | none =>
        rw [hfinished] at h
        cases h
        refine ⟨[], line.reverse, 10 :: bytes, rfl, ⟨rfl, by simp⟩, ⟨hfeed hline, ?_⟩, by simp⟩
        intro text htext
        obtain ⟨kept, hkept, -⟩ := finished_encode text
        rw [← htext, List.reverse_reverse] at hkept
        exact fromUTF8?_eq_none_iff.mp hfinished kept hkept
      | some text =>
        rw [hfinished] at h
        obtain ⟨rfl, hlater⟩ := Prod.mk.inj h
        obtain ⟨front, bad, later, hbytes, ⟨hread, hlast⟩, hrest⟩ :=
          ih List.not_mem_nil (Prod.ext rfl hlater)
        rw [List.reverse_nil, List.nil_append] at hbytes
        refine ⟨line.reverse ++ 10 :: front, bad, later, by simp [hbytes], ⟨?_, ?_⟩, hrest⟩
        · rw [read] at hread
          rw [read, split_append (hfeed hline), List.reverse_reverse, List.append_nil, split_feed,
            decode, hfinished, hread]
        · intro b hm
          rw [List.getLast?_append, List.getLast?_cons] at hm
          cases hfront : front.getLast? with
          | none =>
            rw [hfront] at hm
            cases hm
            rfl
          | some last =>
            rw [hfront] at hm
            cases hm
            exact hlast _ hfront
    · rw [split_of_ne hb] at h
      have hlater : UnreadableAfter lines ((b :: line).reverse ++ bytes) :=
        ih (by simpa [hline] using Ne.symm hb) h
      rwa [List.reverse_cons, List.append_assoc] at hlater

theorem unreadableAfter_iff : UnreadableAfter lines bytes ↔ read bytes = (lines, false) :=
  ⟨read_of_unreadableAfter, unreadableAfter_of_decode List.not_mem_nil⟩

end Text.Lines

namespace CommandLine

open Session (prompt)
open Text.Lines (UnreadableAfter chunks encode join)

theorem holdSession_encode (text : List Char) (budget patience : Nat) :
    holdSession patience (encode text) budget = ((Session.run text budget patience).1, none) := by
  obtain ⟨hcomplete, hrejoined⟩ := Text.Lines.rejoined_read_encode text
  rw [holdSession, Session.run_rejoined hrejoined, hcomplete]
  rfl

/-- A line that is not UTF-8 ends a session like the end of the input. Whatever the line holds, and
whatever comes behind it, the session writes what it writes on the lines in front. It fails if these
lines bring it to the end of its text, and does not if they bring it to a reserved word at which it
is left. The same goes for a console at which the bytes come in line by line. -/
theorem session_of_unreadable (lines : List String) (budget patience : Nat) :
    ∃ output failure passed last,
      holdSession patience (encode (join lines)) budget = (prompt ++ output, none) ∧
      (Session.start (join lines) budget patience).After passed last ∧
      prompt ++ output = String.join ((last :: passed).map fun s => prompt ++ s.answer).reverse ∧
      ((last.read.1 = .ok none ∧ last.turn = .stop "\n" .endOfInput ∧
          failure = some (.input .notText)) ∨
        (∃ word, last.read.1 = .error (.reservedWord word)) ∧ last.turn = .stop "" .exit ∧
          failure = none) ∧
      ∀ bytes, UnreadableAfter lines bytes →
        holdSession patience bytes budget = (prompt ++ output, failure) ∧
        (Console.start budget patience).Writes (chunks [] bytes) output failure := by
  obtain ⟨output, failure, hlines, -⟩ :=
    Console.exists_writes (encode (join lines)) budget patience
  have hwritten := congrArg Prod.fst ((holdSession_encode _ budget patience).symm.trans hlines)
  obtain ⟨passed, last, hafter, hstop, houtput⟩ :=
    Session.exists_stop_of_run (join lines) budget patience
  refine ⟨output, sessionFailure false (Session.run (join lines) budget patience).2, passed, last,
    ?_, hafter, hwritten.symm.trans houtput, ?_, fun bytes h => ?_⟩
  · rw [holdSession_encode]
    exact Prod.ext hwritten rfl
  · rcases Session.turn_eq_stop_iff.mp hstop with
      ⟨hread, hanswer, hending⟩ | ⟨word, hread, -, hanswer, hending⟩
    · rw [hanswer, hending] at hstop
      exact .inl ⟨hread, hstop, by rw [hending]; rfl⟩
    · rw [hanswer, hending] at hstop
      exact .inr ⟨⟨word, hread⟩, hstop, by rw [hending]; rfl⟩
  · have hhold : holdSession patience bytes budget =
        (prompt ++ output, sessionFailure false (Session.run (join lines) budget patience).2) := by
      rw [holdSession, Text.Lines.unreadableAfter_iff.mp h]
      exact Prod.ext hwritten rfl
    exact ⟨hhold, (Console.writes_iff bytes budget patience).mpr hhold⟩

/-- A statement, a line that is not UTF-8 in the middle of the next one, and a statement behind
it. -/
def statementThenBadLine : List UInt8 :=
  encode "x;\n".toList ++ [0xff, 0xfe] ++ encode ";\ny;\n".toList

/-- The same behind a line that leaves the session. -/
def exitThenBadLine : List UInt8 := encode "exit\n".toList ++ statementThenBadLine

theorem session_of_unreadable_statementThenBadLine :
    (UnreadableAfter ["x;"] statementThenBadLine ∧
      holdSession 3 statementThenBadLine 0 = (">> x\n>> \n", some (.input .notText)) ∧
      (Console.start 0 3).Writes (chunks [] statementThenBadLine) "x\n>> \n"
        (some (.input .notText))) ∧
    UnreadableAfter ["exit", "x;"] exitThenBadLine ∧
      holdSession 3 exitThenBadLine 0 = (">> ", none) ∧
      (Console.start 0 3).Writes (chunks [] exitThenBadLine) "" none := by
  constructor
  · have hafter : UnreadableAfter ["x;"] statementThenBadLine :=
      Text.Lines.unreadableAfter_iff.mpr (by decide +kernel)
    have hrun : holdSession 3 statementThenBadLine 0 =
        (prompt ++ "x\n>> \n", some (.input .notText)) := by decide +kernel
    obtain ⟨output, failure, passed, last, -, -, -, -, hbytes⟩ := session_of_unreadable ["x;"] 0 3
    obtain ⟨hhold, hwrites⟩ := hbytes statementThenBadLine hafter
    obtain ⟨houtput, rfl⟩ := Prod.mk.inj (hhold.symm.trans hrun)
    obtain rfl := (String.append_right_inj prompt).mp houtput
    exact ⟨hafter, hrun, hwrites⟩
  · have hafter : UnreadableAfter ["exit", "x;"] exitThenBadLine :=
      Text.Lines.unreadableAfter_iff.mpr (by decide +kernel)
    have hrun : holdSession 3 exitThenBadLine 0 = (prompt ++ "", none) := by decide +kernel
    obtain ⟨output, failure, passed, last, -, -, -, -, hbytes⟩ :=
      session_of_unreadable ["exit", "x;"] 0 3
    obtain ⟨hhold, hwrites⟩ := hbytes exitThenBadLine hafter
    obtain ⟨houtput, rfl⟩ := Prod.mk.inj (hhold.symm.trans hrun)
    obtain rfl := (String.append_right_inj prompt).mp houtput
    exact ⟨hafter, hrun, hwrites⟩

end CommandLine

end LambdaCalc
