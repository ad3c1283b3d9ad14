import LambdaCalc.Proofs.AlphaEquivalence
import LambdaCalc.Proofs.Grammar
import LambdaCalc.Term.Printer

namespace LambdaCalc

/-- The words that are read as identifiers where nothing is reserved. -/
def isIdentifier (word : String) : Bool :=
  match word.toList with
  | [] => false
  | c :: cs => c.isLower && cs.all isWordChar && word != "true" && word != "false"

theorem exists_of_isIdentifier {word : String} (h : isIdentifier word = true) :
    ∃ c cs, word.toList = c :: cs ∧ c.isLower = true ∧ (∀ d ∈ cs, isWordChar d = true) ∧
      Token.ofWord word = .identifier word := by
  rw [isIdentifier] at h
  split at h
  · simp at h
  · next c cs hw =>
    simp only [Bool.and_eq_true, List.all_eq_true, bne_iff_ne] at h
    obtain ⟨⟨⟨hc, hcs⟩, htrue⟩, hfalse⟩ := h
    exact ⟨c, cs, hw, hc, hcs, by rw [Token.ofWord, if_neg htrue, if_neg hfalse]⟩

/-- No word goes on with this text. -/
def EndsWord (rest : List Char) : Prop := ∀ c ∈ rest.head?, isWordChar c = false

theorem cut_identifier {word : String} {rest : List Char} (hw : isIdentifier word = true)
    (hrest : EndsWord rest) :
    Cut (fun _ => false) (word.toList ++ rest) [.identifier word] rest := by
  obtain ⟨c, cs, hlist, hc, hcs, hof⟩ := exists_of_isIdentifier hw
  have hread : Token.read (fun _ => false) (c :: (cs ++ rest)) = _ :=
    Token.read_word hc hcs hrest rfl
  have htoken :
      Token.ofLowercase (fun _ => false) (String.ofList (c :: cs)) = .identifier word := by
    rw [← hlist, String.ofList_toList]
    exact hof
  rw [htoken] at hread
  rw [hlist]
  exact .cons hread (by simp) (.nil rest)

namespace Term

/-- All names in the term are identifiers of the language. -/
def Readable (t : Term) : Prop := ∀ v ∈ t.heads ++ t.vars, isIdentifier v.name = true

instance (t : Term) : Decidable t.Readable :=
  inferInstanceAs (Decidable (∀ v ∈ t.heads ++ t.vars, isIdentifier v.name = true))

/-- Two terms have the same constructors and the same names at every position. -/
def sameNames : Term → Term → Bool
  | var _ v, var _ w => v.name == w.name
  | lam _ v a, lam _ w b => v.name == w.name && sameNames a b
  | app _ f a, app _ g b => sameNames f g && sameNames a b
  | _, _ => false

/-- The phrase as which a term is printed. Brackets never only group. -/
def phrase : Term → Phrase
  | var _ v => .identifier v.name
  | lam _ head body => .lambda head.name body.phrase
  | app _ fn arg => .apply fn.phrase arg.phrase

theorem sameNames_iff (t u : Term) : t.sameNames u = true ↔ t.phrase = u.phrase := by
  induction t generalizing u with
  | var _ v => cases u <;> simp [sameNames, phrase]
  | lam _ head body ih => cases u <;> simp [sameNames, phrase, ih]
  | app _ fn arg hf ha => cases u <;> simp [sameNames, phrase, hf, ha]

theorem readable_lam {n : Nat} {head : Variable} {body : Term} :
    (lam n head body).Readable ↔ isIdentifier head.name = true ∧ body.Readable := by
  simp [Readable, heads, vars]

theorem readable_app {n : Nat} {fn arg : Term} :
    (app n fn arg).Readable ↔ fn.Readable ∧ arg.Readable := by
  simp only [Readable, heads, vars, List.mem_append]
  constructor
  · intro h
    exact ⟨fun v hv => h v (by tauto), fun v hv => h v (by tauto)⟩
  · rintro ⟨hf, ha⟩ v hv
    have := hf v
    have := ha v
    tauto

/-- A printed term is cut into the tokens of its phrase, whatever follows it. -/
theorem cut_text {t : Term} {rest : List Char} (ht : t.Readable) (hrest : EndsWord rest) :
    Cut (fun _ => false) (t.text.toList ++ rest) t.phrase.tokens rest := by
  have hblank : Text.isBlank ' ' = true := by decide
  induction t generalizing rest with
  | var _ v => exact cut_identifier (ht v (by simp [vars])) hrest
  | lam _ head body ih =>
    obtain ⟨hhead, hbody⟩ := readable_lam.mp ht
    have hspace : EndsWord (' ' :: '.' :: ' ' :: (body.text.toList ++ rest)) := by
      simp [EndsWord, isWordChar]
    have hdot := Cut.operator .dot rfl ((ih hbody hrest).blank hblank body.phrase.tokens_ne_nil)
    have hword := (cut_identifier hhead hspace).append (hdot.blank hblank (by simp))
    have hlambda := Cut.operator .lambda rfl hword
    simpa [text, phrase, Phrase.tokens, Operator.char] using hlambda
  | app _ fn arg hf ha =>
    obtain ⟨hfn, harg⟩ := readable_app.mp ht
    have hclose : EndsWord (')' :: ' ' :: (arg.text.toList ++ rest)) := by
      simp [EndsWord, isWordChar]
    have hbehind := Cut.operator .closeBracket rfl
      ((ha harg hrest).blank hblank arg.phrase.tokens_ne_nil)
    have hopen := Cut.operator .openBracket rfl ((hf hfn hclose).append hbehind)
    simpa [text, phrase, Phrase.tokens, Operator.char] using hopen

/-- A phrase that a term is printed as denotes only terms of the same shape and names. -/
theorem phrase_eq_of_denotes {t u : Term} {program : Program} {patience : Nat}
    {scope : List Variable} {s s' : Supply}
    (h : t.phrase.Denotes program patience scope s u s') : u.phrase = t.phrase := by
  induction t generalizing scope s u s' with
  | var _ v =>
    cases h with
    | bound hf =>
      have hname := List.find?_some hf
      simpa [phrase] using hname
    | free _ => rfl
  | lam _ head body ih =>
    cases h with
    | lambda hb => simp [phrase, ih hb]
  | app _ fn arg hf ha =>
    cases h with
    | apply hfn harg => simp [phrase, hf hfn, ha harg]

theorem plain_phrase (t : Term) : t.phrase.Plain := by
  induction t with
  | var _ _ => trivial
  | lam _ _ _ ih => exact ih
  | app _ _ _ hf ha => exact ⟨hf, ha⟩

/-- The lambdas around a part of a term, and those around the part of the same place in the term
that is read from its text while the supply is at `bound`. -/
structure Parallel (scope scope' : List Variable) (bound : Nat) : Prop where
  names : scope'.map Variable.name = scope.map Variable.name
  distinct : (scope'.map Variable.id).Nodup
  flagged : ∀ head ∈ scope', head.bound = true
  below : ∀ head ∈ scope', head.id < bound

namespace Parallel

variable {scope scope' : List Variable} {bound : Nat}

theorem mono {bound' : Nat} (h : Parallel scope scope' bound) (hb : bound ≤ bound') :
    Parallel scope scope' bound' :=
  ⟨h.names, h.distinct, h.flagged, fun head hh => Nat.lt_of_lt_of_le (h.below head hh) hb⟩

theorem length_eq (h : Parallel scope scope' bound) : scope'.length = scope.length := by
  simpa using congrArg List.length h.names

theorem notMem (h : Parallel scope scope' bound) : bound ∉ scope'.map Variable.id := by
  intro hm
  obtain ⟨head, hh, hid⟩ := List.mem_map.mp hm
  have := h.below head hh
  omega

/-- The next lambda that is read gets the next identity. -/
theorem cons (h : Parallel scope scope' bound) (head : Variable) :
    Parallel (head :: scope) (⟨head.name, true, bound⟩ :: scope') (bound + 1) := by
  refine ⟨?_, ?_, ?_, ?_⟩
  · simp [h.names]
  · simpa using ⟨by simpa using h.notMem, h.distinct⟩
  · simpa using h.flagged
  · intro x hx
    rcases List.mem_cons.mp hx with rfl | hx
    · exact Nat.lt_succ_self bound
    · exact Nat.lt_succ_of_lt (h.below x hx)

end Parallel

/-- An identifier that is read belongs to the first lambda of its name. -/
theorem byName_of_denotes_identifier {word : String} {t : Term} {scope scope' : List Variable}
    {s s' : Supply} (h : (Phrase.identifier word).Denotes {} 0 scope' s t s')
    (hp : Parallel scope scope' s.id) :
    (t.namelessIn (scope'.map Variable.id)).byName =
      Nameless.occurrence scope'.length ((scope'.map Variable.name).idxOf word) word := by
  have hfind := find?_eq_getElem?_idxOf Variable.name scope' word
  cases h with
  | @bound _ _ _ head hf =>
    rw [hf, eq_comm, List.getElem?_eq_some_iff] at hfind
    obtain ⟨hlt, hget⟩ := hfind
    have hid : (scope'.map Variable.id).idxOf head.id = (scope'.map Variable.name).idxOf word := by
      have hi := hp.distinct.idxOf_getElem _ (by simpa using hlt)
      simpa [hget] using hi
    have hname : head.name = word := by simpa using List.find?_some hf
    rw [byName_namelessIn_var, hid, hname, List.length_map]
  | free hf =>
    rw [hf, eq_comm, List.getElem?_eq_none_iff] at hfind
    have hnames : (scope'.map Variable.name).idxOf word ≤ scope'.length := by
      simpa using List.idxOf_le_length (l := scope'.map Variable.name) (a := word)
    have hids : (scope'.map Variable.id).idxOf s.id = scope'.length := by
      simpa using List.idxOf_eq_length hp.notMem
    rw [byName_namelessIn_var, List.length_map, hids, Nat.le_antisymm hnames hfind]

/-- The term that is read and the printed one are alpha-equivalent if names lead to lambdas as
identities do. -/
theorem byName_eq_iff_faithfulIn {e t : Term} {scope scope' : List Variable} {bound : Nat}
    {s s' : Supply} (h : e.phrase.Denotes {} 0 scope' s t s') (he : e.ScopedIn scope bound)
    (hp : Parallel scope scope' s.id) :
    (t.namelessIn (scope'.map Variable.id)).byName = (e.namelessIn (scope.map Variable.id)).byName ↔
      e.FaithfulIn scope := by
  induction e generalizing t scope scope' s s' with
  | var n v =>
    have ho : ⟨v, scope⟩ ∈ (var n v).occurrences scope := List.mem_singleton_self _
    have hnames := List.idxOf_le_length (l := scope.map Variable.name) (a := v.name)
    have hids := List.idxOf_le_length (l := scope.map Variable.id) (a := v.id)
    rw [List.length_map] at hnames hids
    have hone : (var n v).FaithfulIn scope ↔ (⟨v, scope⟩ : Occurrence).Faithful := by
      simp [FaithfulIn, occurrences]
    rw [byName_of_denotes_identifier h hp, byName_namelessIn_var, List.length_map, hp.names,
      hp.length_eq, Nameless.occurrence_inj hnames hids, hone,
      Occurrence.faithful_iff _ (he.scope_distinct ho)]
  | lam _ head body ih =>
    cases h with
    | lambda hb =>
      simp only [namelessIn, Nameless.byName, Nameless.lam.injEq]
      exact ih hb he.body (hp.cons head)
  | app _ fn arg hf ha =>
    cases h with
    | @apply _ _ s₁ s₂ _ _ f a hfn harg =>
      have hle : s.id ≤ s₁.id := by
        rw [(hfn.introduced_eq hp.flagged).1]
        exact Nat.le_add_right _ _
      have hifff := hf hfn he.fn hp
      have hiffa := ha harg he.arg (hp.mono hle)
      rw [faithfulIn_app, ← hifff, ← hiffa]
      simp [namelessIn, Nameless.byName]

theorem tokenized_print {t : Term} (ht : t.Readable) :
    Tokenized (fun _ => false) t.print.toList t.phrase.tokens := by
  have hend : EndsWord [] := by simp [EndsWord]
  have hnone : Tokenized (fun _ => false) [] [] := .done rfl
  have h := (cut_text ht hend).tokenized hnone
  rw [print_eq_text]
  simpa using h

theorem print_eq_of_sameNames {t u : Term} (h : t.sameNames u = true) : t.print = u.print := by
  rw [print_eq_text, print_eq_text]
  induction t generalizing u with
  | var _ v =>
    cases u with
    | var _ w =>
      simp only [sameNames, beq_iff_eq] at h
      rw [text, text, h]
    | _ => simp [sameNames] at h
  | lam _ head body ih =>
    cases u with
    | lam _ head' body' =>
      simp only [sameNames, Bool.and_eq_true, beq_iff_eq] at h
      rw [text, text, h.1, ih h.2]
    | _ => simp [sameNames] at h
  | app _ fn arg hf ha =>
    cases u with
    | app _ fn' arg' =>
      simp only [sameNames, Bool.and_eq_true] at h
      rw [text, text, hf h.1, ha h.2]
    | _ => simp [sameNames] at h

/-- A printed term is read back with the same constructors and the same names at every position, so
that terms that differ in these are never printed alike. If it is well scoped, the term that is
read is alpha-equivalent to it exactly when it is name-faithful. -/
theorem ofText_print {e : Term} (he : e.Readable) (s : Supply) :
    ∃ t s', ofText e.print s = .ok t s' ∧ t.sameNames e = true ∧ t.print = e.print ∧
      (∀ u : Term, u.Readable → u.print = e.print → u.sameNames e = true) ∧
      (∀ bound, e.WellScoped bound → (t.AlphaEq e ↔ e.NameFaithful)) := by
  obtain ⟨t, s', hd⟩ := e.plain_phrase.exists_denotes {} 0 [] s
  have hread : ofText e.print s = .ok t s' :=
    ofText_eq_ok_iff.mpr ⟨e.phrase, tokenized_print he, hd⟩
  have hsame : t.sameNames e = true := (sameNames_iff t e).mpr (phrase_eq_of_denotes hd)
  refine ⟨t, s', hread, hsame, print_eq_of_sameNames hsame, ?_, ?_⟩
  · intro u hu hprint
    have htokens : Tokenized (fun _ => false) e.print.toList u.phrase.tokens :=
      hprint ▸ tokenized_print hu
    have hphrase := Phrase.tokens_injective (htokens.unique (tokenized_print he))
    exact (sameNames_iff u e).mpr hphrase
  · intro bound hscoped
    have hempty : Parallel [] [] s.id := ⟨rfl, List.nodup_nil, by simp, by simp⟩
    exact byName_eq_iff_faithfulIn hd ((wellScoped_iff bound e).mp hscoped) hempty

/-- An occurrence of the outer variable `x` stands under an inner lambda called `x`. -/
def capturedName : Term := lam 0 ⟨"x", true, 0⟩ (lam 1 ⟨"x", true, 1⟩ (var 2 ⟨"x", true, 0⟩))

/-- The text of this term is read as a term that means something else. -/
theorem ofText_print_capturedName :
    capturedName.Readable ∧ capturedName.WellScoped 2 ∧ ¬capturedName.NameFaithful ∧
      ∃ t s', ofText capturedName.print ⟨2, 3⟩ = .ok t s' ∧ t.sameNames capturedName = true ∧
        ¬t.AlphaEq capturedName := by
  have he : capturedName.Readable := by decide
  have hscoped : capturedName.WellScoped 2 := by constructor <;> decide
  have hf : ¬capturedName.NameFaithful := by decide
  obtain ⟨t, s', hread, hsame, _, _, hiff⟩ := ofText_print he ⟨2, 3⟩
  exact ⟨he, hscoped, hf, t, s', hread, hsame, fun h => hf ((hiff 2 hscoped).mp h)⟩

end Term

end LambdaCalc
