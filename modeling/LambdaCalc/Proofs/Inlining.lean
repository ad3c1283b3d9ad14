import LambdaCalc.Proofs.Correspondence
import LambdaCalc.Proofs.Expansion
import LambdaCalc.Proofs.Sentence

namespace LambdaCalc

namespace Sentence

/-- For every token up to the end of the term, the term that takes its place: the meaning of a name
that is used. A name that is assigned to stays. -/
def meanings (x : Sentence) (r : Reader) (empty : Nat) : List (Option Term) :=
  List.replicate (empty + (header x.assigned).length) none ++
    x.term.tokens.map (Token.meaning r.meaning)

/-- The sentence in which the names that are used are replaced. -/
def inlined (x : Sentence) (r : Reader) : Sentence := { x with term := x.term.expand r.meaning }

variable {r : Reader} {x : Sentence} {empty : Nat}

theorem inlineTokens_replicate (n : Nat) (tokens : List Token) :
    inlineTokens (List.replicate n none) tokens = tokens := by
  induction n generalizing tokens with
  | zero => rfl
  | succ n ih =>
    cases tokens with
    | nil => rfl
    | cons token tokens => exact congrArg (token :: ·) (ih tokens)

theorem row_inlined (x : Sentence) (r : Reader) (empty : Nat) :
    (x.inlined r).row empty = inlineTokens (x.meanings r empty) (x.row empty) := by
  have hrow : x.row empty = (List.replicate empty (.operator .semicolon) ++ header x.assigned) ++
      (x.term.tokens ++ x.suffix.tokens) := by
    simp [row, tokens]
  have hterm : inlineTokens (x.term.tokens.map (Token.meaning r.meaning))
      (x.term.tokens ++ x.suffix.tokens) =
        (x.term.expand r.meaning).tokens ++ x.suffix.tokens := by
    have hlength : (x.term.tokens.map (Token.meaning r.meaning)).length = x.term.tokens.length :=
      List.length_map _
    rw [← List.append_nil (x.term.tokens.map _), inlineTokens_append hlength,
      ← Phrase.tokens_expand]
    rfl
  rw [hrow, meanings, inlineTokens_append (by simp), inlineTokens_replicate, hterm]
  simp [row, tokens, inlined]

theorem length_meanings_le (x : Sentence) (r : Reader) (empty : Nat) :
    (x.meanings r empty).length ≤ (x.row empty).length := by
  simp only [meanings, row, tokens, List.length_append, List.length_map, List.length_replicate]
  omega

theorem readable_of_mem_meanings (hr : r.Literate) :
    ∀ t, some t ∈ x.meanings r empty → t.Readable := by
  intro t ht
  rw [meanings, List.mem_append, List.mem_map] at ht
  rcases ht with ht | ⟨token, _, ht⟩
  · cases List.eq_of_mem_replicate ht
  · cases token with
    | name word => exact hr.readable_meaning ht
    | _ => cases ht

theorem fits_inlined (h : x.Fits) : (x.inlined r).Fits := by
  intro hend
  rw [inlined, Phrase.endsInGroup_expand] at hend
  exact h hend

end Sentence

theorem Command.text_eq {c c' : Command} (hterm : c'.term.phrase = c.term.phrase)
    (hconversion : c'.conversion = c.conversion) : c'.text = c.text := by
  have hprint := Term.print_eq_of_sameNames ((Term.sameNames_iff _ _).mpr hterm)
  rw [text, text, hconversion, hprint]

namespace Read

variable {r r' : Reader} {c : Command}

/-- A statement is read in the same way with the meanings of its names written out. -/
theorem statement_withInput (hr : r.Reachable) (hreserved : r.source.reserved = []) {x : Sentence}
    {empty : Nat} (hx : r.Reads x empty c r') :
    ∃ t s r'', statement (r.withInput (inlineText (x.meanings r empty) r.source.input)) =
        .ok (some ⟨t, c.conversion⟩) r'' ∧
      r''.source.input = r'.source.input ∧
      (x.term.expand r.meaning).Denotes {} 0 [] r.supply t s ∧ t.phrase = c.term.phrase := by
  have hnone : r.source.isReserved = fun _ => false := by
    funext word
    simp [Source.isReserved, hreserved]
  have hcut := hx.cut
  rw [hnone] at hcut
  have hcut := hcut.inlined (Sentence.readable_of_mem_meanings hr.literate)
    (x.length_meanings_le r empty)
  rw [← Sentence.row_inlined, ← hnone] at hcut
  -- a plain phrase needs no program, so what it denotes can be taken from an empty one
  have hplain := hx.denotes.plain_expand hr.sound (Nat.le_refl _)
  obtain ⟨t, s, ht⟩ := hplain.exists_denotes {} 0 [] r.supply
  have hdenotes : (x.term.expand r.meaning).Denotes r.program r.patience [] r.supply t s :=
    ht.of_plain hplain
  obtain ⟨r'', hstatement, hrest, -⟩ :=
    statement_of_sentence (r := r.withInput (inlineText (x.meanings r empty) r.source.input))
      (Sentence.fits_inlined hx.fits) hcut hdenotes hx.means
  exact ⟨t, s, r'', hstatement, hrest, ht,
    hx.denotes.phrase_expand hr.sound (Nat.le_refl _) hdenotes⟩

/-- If all names that are used mean closed name-faithful terms, writing these out makes the same
term up to a renaming of identities. -/
theorem alike_of_closed (hr : r.Reachable) {x : Sentence} {empty bound bound' : Nat}
    {t : Term} {s : Supply} (hx : r.Reads x empty c r') (hc : c.term.WellFormed bound)
    (hread : (x.term.expand r.meaning).Denotes {} 0 [] r.supply t s) (ht : t.WellFormed bound')
    (hphrase : t.phrase = c.term.phrase)
    (hmeaning : ∀ use ∈ x.term.uses, ∀ u, r.meaning use.2 = some u → u.Closed ∧ u.NameFaithful) :
    ∃ σ : Nat → Nat, (∀ i ∈ c.term.ids, ∀ j ∈ c.term.ids, σ i = σ j → i = j) ∧
      (c.term.mapIds σ).alike t = true := by
  have hempty : Term.Parallel [] [] r.supply.id := ⟨rfl, List.nodup_nil, by simp, by simp⟩
  have halpha : t.AlphaEq c.term :=
    hx.denotes.byName_expand hr.sound (Nat.le_refl _) hmeaning hempty hempty hread
  have hdrawn := hx.denotes.introduces hr.sound (Nat.le_refl _)
    (fun use hu u hm => (hmeaning use hu u hm).1) (by simp)
  have hdistinct : (t.introduced.map Variable.id).Nodup := by
    rw [(hread.introduced_eq (by simp)).2]
    exact List.nodup_range'
  obtain ⟨σ, hinj, hσ⟩ := Term.exists_renumbered hc ht hphrase halpha hdrawn.distinct hdistinct
  exact ⟨σ, hinj, Term.renumbered_iff.mp hσ⟩

/-- In a statement without reserved words, every name that is used can be replaced by the text of
what it means, with spaces around it. The statement is read as a command of the same text, and if
all these meanings are closed and name-faithful, as the same term up to a renaming of identities.
Where a name stands, the term holds a copy of its meaning: the identities of its lambdas occur
nowhere else in the term, and every free occurrence is the same variable as in the meaning, whatever
lambdas stand around it. -/
theorem statement_inlined (hr : r.Reachable) (hreserved : r.source.reserved = [])
    (h : statement r = .ok (some c) r') :
    (∃ (x : Sentence) (empty : Nat), r.Reads x empty c r') ∧
      ∀ (x : Sentence) (empty : Nat), r.Reads x empty c r' →
        (∃ c' r'',
          statement (r.withInput (inlineText (x.meanings r empty) r.source.input)) =
              .ok (some c') r'' ∧
            r''.source.input = r'.source.input ∧ c'.text = c.text ∧
            c'.conversion = c.conversion ∧
            ((∀ use ∈ x.term.uses, ∀ u, r.meaning use.2 = some u → u.Closed ∧ u.NameFaithful) →
              ∃ σ : Nat → Nat, (∀ i ∈ c.term.ids, ∀ j ∈ c.term.ids, σ i = σ j → i = j) ∧
                (c.term.mapIds σ).alike c'.term = true)) ∧
        ∀ use ∈ x.term.uses, ∃ u copy,
          r.meaning use.2 = some u ∧ c.term.at? use.1 = some copy ∧
            copy.sameNames u = true ∧ copy.nameless = u.nameless ∧
            (∀ head ∈ copy.heads, head.id ∉ c.term.idsOutside use.1) ∧
            ∀ path n v, u.at? path = some (.var n v) → v.bound = false →
              ∃ m, copy.at? path = some (.var m v) := by
  refine ⟨sentence_of_statement h, fun x empty hx => ?_⟩
  obtain ⟨-, -, hc⟩ := sound_of_statement_ok hr.sound h
  have hc : c.term.WellFormed r'.supply.id := hc c (List.mem_singleton_self _)
  constructor
  · obtain ⟨t, s, r'', hstatement, hrest, hread, hphrase⟩ := statement_withInput hr hreserved hx
    obtain ⟨-, -, ht⟩ := sound_of_statement_ok
      (r := r.withInput (inlineText (x.meanings r empty) r.source.input)) hr.sound hstatement
    exact ⟨_, r'', hstatement, hrest, Command.text_eq hphrase rfl, rfl,
      alike_of_closed hr hx hc hread (ht _ (List.mem_singleton_self _)) hphrase⟩
  · intro use hu
    obtain ⟨u, copy, hm, hcopy, hspliced⟩ :=
      hx.denotes.spliced_of_mem_uses hr.sound (Nat.le_refl _) use hu
    exact ⟨u, copy, hm, hcopy, (Term.sameNames_iff _ _).mpr hspliced.phrase, hspliced.nameless,
      hc.scopedIn.head_notMem_idsOutside hcopy, hspliced.free⟩

/-- `F` means a free `y`, and is used inside of a lambda of that name. -/
def shadowedFree : Reader where
  source := { input := " \\y.(F) y;".toList }
  current := .operator .semicolon
  program :=
    { named := [("F", ⟨.var 0 ⟨"y", false, 0⟩, .identity⟩)]
      last := some ⟨.var 0 ⟨"y", false, 0⟩, .identity⟩ }
  supply := ⟨1, 1⟩
  budget := 0
  patience := 0

/-- The command that is read there. The `y` of `F` stays free. -/
def shadowedFreeCommand : Command where
  term := .lam 3 ⟨"y", true, 1⟩ (.app 2 (.var 0 ⟨"y", false, 0⟩) (.var 1 ⟨"y", true, 1⟩))
  conversion := .identity

def shadowedFreeLeft : Reader :=
  { shadowedFree with
    source := { input := [] }
    program := shadowedFree.program.setLast shadowedFreeCommand
    supply := ⟨2, 4⟩ }

def shadowedFreeSentence : Sentence where
  assigned := none
  term := .lambda "y" (.apply (.name "F") (.identifier "y"))
  suffix := .none

theorem reachable_shadowedFree : shadowedFree.Reachable := by
  have hread : statement
      { source := { input := "'F' = y; \\y.(F) y;".toList }, budget := 0, patience := 0 } =
        .ok (some ⟨.var 0 ⟨"y", false, 0⟩, .identity⟩) shadowedFree :=
    answers?_eq_some_iff.mp (by decide +kernel)
  exact .read (.start _ _ _ _) hread

theorem reads_shadowedFree :
    shadowedFree.Reads shadowedFreeSentence 0 shadowedFreeCommand shadowedFreeLeft := by
  have hsemicolon : Cut shadowedFree.source.isReserved [';'] [.operator .semicolon] [] :=
    .cons (by decide +kernel) (by simp) (.nil _)
  have harg : Cut shadowedFree.source.isReserved " y;".toList
      [.identifier "y", .operator .semicolon] [] :=
    .cons (by decide +kernel) (by simp) hsemicolon
  have happly : Cut shadowedFree.source.isReserved "(F) y;".toList
      (.operator .openBracket :: .name "F" :: .operator .closeBracket ::
        [.identifier "y", .operator .semicolon]) [] :=
    .cons (show _ = (_, "F) y;".toList) by decide +kernel) (by simp)
      (.cons (show _ = (_, ") y;".toList) by decide +kernel) (by simp)
        (.cons (by decide +kernel) (by simp) harg))
  refine ⟨fun _ => rfl, ?_, ?_, .none, rfl⟩
  · exact .cons (show _ = (_, "y.(F) y;".toList) by decide +kernel) (by simp)
      (.cons (show _ = (_, ".(F) y;".toList) by decide +kernel) (by simp)
        (.cons (by decide +kernel) (by simp) happly))
  · have houtcome : (⟨.var 0 ⟨"y", false, 0⟩, .identity⟩ : Command).execute 0 ⟨2, 1⟩ =
        .ok (.var 0 ⟨"y", false, 0⟩) ⟨2, 1⟩ := rfl
    have hfn : (Phrase.name "F").Denotes shadowedFree.program 0 [⟨"y", true, 1⟩] ⟨2, 1⟩
        (.var 0 ⟨"y", false, 0⟩) ⟨2, 1⟩ :=
      Phrase.Denotes.name (t := .var 0 ⟨"y", false, 0⟩) rfl houtcome
    have harg : (Phrase.identifier "y").Denotes shadowedFree.program 0 [⟨"y", true, 1⟩] ⟨2, 1⟩
        (.var 1 ⟨"y", true, 1⟩) ⟨2, 2⟩ := .bound rfl
    exact Phrase.Denotes.lambda (s := shadowedFree.supply) (.apply hfn harg)

/-- With `F` written out, the same text is printed; but the `y` of `F` was the free one. -/
theorem statement_inlined_shadowedFree :
    inlineText (shadowedFreeSentence.meanings shadowedFree 0) shadowedFree.source.input =
        " \\y.( y ) y;".toList ∧
      (∃ c' r'', statement (shadowedFree.withInput " \\y.( y ) y;".toList) = .ok (some c') r'' ∧
        c'.text = shadowedFreeCommand.text) ∧
      ∃ u copy m, shadowedFree.meaning "F" = some u ∧
        shadowedFreeCommand.term.at? [.body, .fn] = some copy ∧
        copy.at? [] = some (.var m ⟨"y", false, 0⟩) := by
  have hread : statement shadowedFree = .ok (some shadowedFreeCommand) shadowedFreeLeft :=
    answers?_eq_some_iff.mp (by decide +kernel)
  obtain ⟨⟨c', r'', hstatement, -, htext, -⟩, huse⟩ :=
    (statement_inlined reachable_shadowedFree rfl hread).2 shadowedFreeSentence 0 reads_shadowedFree
  have hinline : inlineText (shadowedFreeSentence.meanings shadowedFree 0)
      shadowedFree.source.input = " \\y.( y ) y;".toList := by
    have hmeanings : shadowedFreeSentence.meanings shadowedFree 0 =
        [none, none, none, none, some (.var 0 ⟨"y", false, 0⟩), none, none] := rfl
    have hprint : (Term.var 0 ⟨"y", false, 0⟩).print = "y" := by
      simp [Term.print_eq_text, Term.text]
    rw [hmeanings]
    simp only [inlineText, hprint]
    decide +kernel
  rw [hinline] at hstatement
  obtain ⟨u, copy, hu, hcopy, -, -, -, hfree⟩ := huse ([.body, .fn], "F") (by decide)
  cases hu
  obtain ⟨m, hm⟩ := hfree [] 0 ⟨"y", false, 0⟩ rfl rfl
  exact ⟨hinline, ⟨c', r'', hstatement, htext⟩, _, copy, m, rfl, hcopy, hm⟩

end Read

end LambdaCalc
