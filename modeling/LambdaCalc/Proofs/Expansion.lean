import LambdaCalc.Proofs.Meaning
import LambdaCalc.Proofs.Respelling

namespace LambdaCalc

/-- The term that a token stands for, if it is a name. -/
def Token.meaning (meaning : String → Option Term) : Token → Option Term
  | name word => meaning word
  | _ => none

theorem inlineTokens_append {terms terms' : List (Option Term)} {tokens tokens' : List Token}
    (h : terms.length = tokens.length) : inlineTokens (terms ++ terms') (tokens ++ tokens') =
      inlineTokens terms tokens ++ inlineTokens terms' tokens' := by
  induction terms generalizing tokens with
  | nil =>
    obtain rfl : tokens = [] := List.eq_nil_of_length_eq_zero h.symm
    rfl
  | cons t? terms ih =>
    cases tokens with
    | nil => cases h
    | cons token tokens =>
      have hrest := ih (Nat.succ.inj h)
      cases t? with
      | none => simp [inlineTokens, hrest]
      | some t => simp [inlineTokens, hrest]

namespace Term

/-- What is made of a numeral step by step: one turn for every application in it. -/
theorem applyTimes_fold {α : Type} (part : Term → α) (turn : α → α) {f : Variable}
    (h : ∀ n m t, part (app n (var m f) t) = turn (part t)) (k : Nat) (t : Term) (s : Supply) :
    part (applyTimes f k t s).1 = turn^[k] (part t) := by
  induction k generalizing t s with
  | zero => rfl
  | succ k ih => exact (ih _ _).trans (congrArg turn^[k] (h _ _ _))

theorem phrase_numeral (n : Nat) (s : Supply) : (numeral n s).1.phrase =
    .lambda "f" (.lambda "x" ((Phrase.apply (.identifier "f"))^[n] (.identifier "x"))) :=
  congrArg (fun p => Phrase.lambda "f" (.lambda "x" p))
    (applyTimes_fold phrase (Phrase.apply (.identifier "f")) (fun _ _ _ => rfl) n _ _)

theorem namelessIn_numeral (n : Nat) (s : Supply) (outer : List Nat) :
    (numeral n s).1.namelessIn outer =
      .lam (.lam ((Nameless.app (.index 1))^[n] (.index 0))) := by
  have hturn (i j : Nat) (t : Term) :
      (app i (var j ⟨"f", true, s.id⟩) t).namelessIn ((s.id + 1) :: s.id :: outer) =
        Nameless.app (.index 1) (t.namelessIn ((s.id + 1) :: s.id :: outer)) := by
    simp [namelessIn]
  have hbody := applyTimes_fold _ _ hturn n (var s.node ⟨"x", true, s.id + 1⟩)
    ⟨s.id + 2, s.node + 1⟩
  have hx : (var s.node ⟨"x", true, s.id + 1⟩).namelessIn ((s.id + 1) :: s.id :: outer) =
      .index 0 := by
    simp [namelessIn]
  rw [hx] at hbody
  exact congrArg (fun b => Nameless.lam (.lam b)) hbody

theorem phrase_truth (value : Bool) (s : Supply) : (truth value s).1.phrase =
    .lambda "a" (.lambda "b" (.identifier (if value then "a" else "b"))) := by
  cases value <;> rfl

theorem namelessIn_truth (value : Bool) (s : Supply) (outer : List Nat) :
    (truth value s).1.namelessIn outer = .lam (.lam (.index value.toNat)) := by
  have hbody : (var s.node (if value then ⟨"a", true, s.id⟩ else ⟨"b", true, s.id + 1⟩)).namelessIn
      ((s.id + 1) :: s.id :: outer) = .index value.toNat := by
    cases value <;> simp [namelessIn]
  exact congrArg (fun b => Nameless.lam (.lam b)) hbody

/-- A closed term brings in its lambdas only. -/
theorem Closed.introduced_eq {t : Term} (h : t.Closed) : t.introduced = t.heads := by
  induction t with
  | var n v => simp [introduced, heads, h v List.mem_cons_self]
  | lam n head b ih => simp [introduced, heads, ih h]
  | app n f a hf ha =>
    have hf := hf fun v hv => h v (List.mem_append_left _ hv)
    have ha := ha fun v hv => h v (List.mem_append_right _ hv)
    simp [introduced, heads, hf, ha]

/-- All variables that the term brings in were drawn between `c` and `d`, no identity twice. -/
structure Introduces (c d : Nat) (t : Term) : Prop where
  le : c ≤ d
  distinct : (t.introduced.map Variable.id).Nodup
  mem : ∀ i ∈ t.introduced.map Variable.id, c ≤ i ∧ i < d

theorem Drawn.introduces {c d : Nat} {t : Term} (h : Drawn c d t) (hclosed : t.Closed) :
    Introduces c d t := by
  refine ⟨h.le, ?_, ?_⟩
  · rw [hclosed.introduced_eq]
    exact h.distinct
  · rw [hclosed.introduced_eq]
    exact h.mem

namespace Introduces

variable {c d e n : Nat}

theorem mono {t : Term} (h : Introduces d e t) (hle : c ≤ d) : Introduces c e t :=
  ⟨Nat.le_trans hle h.le, h.distinct, fun i hi => (h.mem i hi).imp_left (Nat.le_trans hle)⟩

theorem lam {head : Variable} {b : Term} (h : Introduces (c + 1) d b) (hid : head.id = c) :
    Introduces c d (Term.lam n head b) := by
  refine ⟨Nat.le_of_succ_le h.le, ?_, ?_⟩
  · refine List.nodup_cons.mpr ⟨fun hi => ?_, h.distinct⟩
    have := (h.mem _ hi).1
    omega
  · refine List.forall_mem_cons.mpr ⟨⟨Nat.le_of_eq hid.symm, ?_⟩, fun i hi => ?_⟩
    · rw [hid]
      exact h.le
    · exact (h.mem i hi).imp_left Nat.le_of_succ_le

theorem app {f a : Term} (hf : Introduces c d f) (ha : Introduces d e a) :
    Introduces c e (Term.app n f a) := by
  refine ⟨Nat.le_trans hf.le ha.le, ?_, ?_⟩
  · rw [introduced, List.map_append]
    refine List.nodup_append.mpr ⟨hf.distinct, ha.distinct, ?_⟩
    rintro i hi j hj rfl
    exact absurd (hf.mem i hi).2 (Nat.not_lt.mpr (ha.mem i hj).1)
  · rw [introduced, List.map_append]
    refine List.forall_mem_append.mpr ⟨fun i hi => ?_, fun i hi => ?_⟩
    · exact (hf.mem i hi).imp_right fun hlt => Nat.lt_of_lt_of_le hlt ha.le
    · exact (ha.mem i hi).imp_left (Nat.le_trans hf.le)

end Introduces

/-- A term stays well scoped inside of lambdas that are drawn later. -/
theorem ScopedIn.under {t : Term} {bound bound' : Nat} {scope : List Variable}
    (h : t.ScopedIn [] bound) (hdistinct : (scope.map Variable.id).Nodup)
    (hscope : ∀ head ∈ scope, bound ≤ head.id ∧ head.id < bound') (hle : bound ≤ bound') :
    t.ScopedIn scope bound' := by
  have hd := h.distinct
  have hb := h.heads_below
  have hnot {i : Nat} (hi : i < bound) : i ∉ scope.map Variable.id := by
    intro hm
    obtain ⟨head, hh, rfl⟩ := List.mem_map.mp hm
    have := hscope head hh
    omega
  refine ⟨?_, h.resolved.mono (by simp), ?_, ?_, ?_⟩
  · rw [List.map_append]
    refine List.nodup_append.mpr ⟨hdistinct, hd, ?_⟩
    rintro i hi j hj rfl
    obtain ⟨head, hh, rfl⟩ := List.mem_map.mp hj
    exact hnot (hb head hh) hi
  · intro v hv hfree
    rw [List.map_append, List.mem_append, not_or]
    exact ⟨hnot (h.free_below v hv hfree), h.apart v hv hfree⟩
  · intro head hh
    rcases List.mem_append.mp hh with hh | hh
    · exact (hscope head hh).2
    · exact Nat.lt_of_lt_of_le (hb head hh) hle
  · exact fun v hv hfree => Nat.lt_of_lt_of_le (h.free_below v hv hfree) hle

/-- The text of a closed name-faithful term means that term wherever it is read. -/
theorem byName_of_denotes_closed {e t : Term} {bound : Nat} {scope : List Variable} {s s' : Supply}
    (h : e.phrase.Denotes {} 0 scope s t s') (he : e.ScopedIn [] bound) (hclosed : e.Closed)
    (hfaithful : e.NameFaithful) (hp : Parallel scope scope s.id) :
    (t.namelessIn (scope.map Variable.id)).byName = e.nameless.byName := by
  -- the term itself knows nothing of the scope, so it is put inside of lambdas with the same names
  let outer : List Variable := scope.map fun head => ⟨head.name, true, bound + head.id⟩
  have hids : outer.map Variable.id = (scope.map Variable.id).map (bound + ·) := by
    simp [outer, Function.comp_def]
  have hnames : scope.map Variable.name = outer.map Variable.name := by
    simp [outer, Function.comp_def]
  have hdistinct : (outer.map Variable.id).Nodup := by
    rw [hids]
    exact hp.distinct.map fun i j hij => Nat.add_left_cancel hij
  have hbelow : ∀ head ∈ outer, bound ≤ head.id ∧ head.id < bound + s.id := by
    intro head hh
    obtain ⟨x, hx, rfl⟩ := List.mem_map.mp hh
    exact ⟨Nat.le_add_right _ _, Nat.add_lt_add_left (hp.below x hx) bound⟩
  have hparallel : Parallel outer scope s.id := ⟨hnames, hp.distinct, hp.flagged, hp.below⟩
  have hiff := byName_eq_iff_faithfulIn h (he.under hdistinct hbelow (Nat.le_add_right _ _))
    hparallel
  have hfree := hclosed.namelessIn_append he.resolved (outer.map Variable.id)
  rw [hiff.mpr (hclosed.faithfulIn he.resolved hfaithful outer)]
  exact congrArg Nameless.byName hfree

end Term

namespace Phrase

/-- The names in a phrase, each with the path that leads to what stands for it in the term. -/
def uses : Phrase → List (List Branch × String)
  | name word => [([], word)]
  | lambda _ body => body.uses.map fun use => (.body :: use.1, use.2)
  | group inner => inner.uses
  | apply fn arg =>
      fn.uses.map (fun use => (.fn :: use.1, use.2)) ++
        arg.uses.map fun use => (.arg :: use.1, use.2)
  | _ => []

/-- Every name that means something is replaced by what that is printed as. -/
def expand (meaning : String → Option Term) : Phrase → Phrase
  | name word => ((meaning word).map Term.phrase).getD (name word)
  | lambda word body => lambda word (body.expand meaning)
  | group inner => group (inner.expand meaning)
  | apply fn arg => apply (fn.expand meaning) (arg.expand meaning)
  | p => p

variable {meaning : String → Option Term}

theorem expand_name {word : String} {t : Term} (h : meaning word = some t) :
    (name word).expand meaning = t.phrase := by
  simp [expand, h]

/-- Replacing the names in a phrase replaces the names among its tokens. -/
theorem tokens_expand (p : Phrase) : (p.expand meaning).tokens =
    inlineTokens (p.tokens.map (Token.meaning meaning)) p.tokens := by
  induction p with
  | identifier word => rfl
  | number digits => rfl
  | truth value => rfl
  | name word =>
    cases hm : meaning word with
    | none => simp [expand, tokens, Token.meaning, inlineTokens, hm]
    | some t => simp [expand, tokens, Token.meaning, inlineTokens, hm]
  | lambda word body ih => simp [expand, tokens, Token.meaning, inlineTokens, ih]
  | group inner ih =>
    simp [expand, tokens, Token.meaning, inlineTokens, ih, inlineTokens_append]
  | apply fn arg hf ha =>
    simp [expand, tokens, Token.meaning, inlineTokens, hf, ha, inlineTokens_append]

theorem endsInGroup_phrase (t : Term) : t.phrase.endsInGroup = false := by
  induction t with
  | var _ _ => rfl
  | lam _ _ _ ih => exact ih
  | app _ _ _ _ ha => exact ha

/-- What a name means never ends with brackets that only group. -/
theorem endsInGroup_expand (p : Phrase) : (p.expand meaning).endsInGroup = p.endsInGroup := by
  induction p with
  | name word =>
    cases hm : meaning word with
    | none => simp [expand, hm]
    | some t => simp [expand, hm, endsInGroup_phrase, endsInGroup]
  | lambda word body ih => exact ih
  | apply fn arg _ ha => exact ha
  | _ => rfl

namespace Denotes

open Term

variable {program : Program} {patience patience' : Nat} {scope scope' : List Variable}
  {s s₁ s' s₁' : Supply} {p : Phrase} {t t' : Term}

theorem le (h : p.Denotes program patience scope s t s₁) : s.id ≤ s₁.id := by
  induction h with
  | bound _ => exact Nat.le_refl _
  | free _ => exact Nat.le_succ _
  | number _ => exact Read.grows_numeral _ _
  | truth => exact Read.grows_truth _ _
  | @name _ s s₁ _ c t _ he =>
    have hle := c.le_leaves_execute patience s
    rw [Attempt.leaves, he] at hle
    exact Nat.le_trans hle (Read.grows_refresh t s₁)
  | lambda _ ih => exact Nat.le_trans (Nat.le_succ _) ih
  | group _ ih => exact ih
  | apply _ _ hf ha => exact Nat.le_trans hf ha

/-- A plain phrase denotes the same whatever the names mean. -/
theorem of_plain {program' : Program} (h : p.Denotes program patience scope s t s₁) (hp : p.Plain) :
    p.Denotes program' patience' scope s t s₁ := by
  induction h with
  | bound hf => exact .bound hf
  | free hf => exact .free hf
  | number hle => exact .number hle
  | truth => exact .truth
  | name _ _ => exact hp.elim
  | lambda _ ih => exact .lambda (ih hp)
  | group _ ih => exact .group (ih hp)
  | apply _ _ hf ha => exact .apply (hf hp.1) (ha hp.2)

variable {r : Reader}

/-- Where a name is used, a copy of what it means stands in the term. -/
theorem spliced_of_mem_uses (hr : r.Sound) (hs : r.supply.id ≤ s.id)
    (h : p.Denotes r.program r.patience scope s t s₁) :
    ∀ use ∈ p.uses, ∃ u copy, r.meaning use.2 = some u ∧ t.at? use.1 = some copy ∧
      u.Spliced copy := by
  induction h with
  | bound _ => simp [uses]
  | free _ => simp [uses]
  | number _ => simp [uses]
  | truth => simp [uses]
  | name hc he =>
    obtain ⟨u, hu, hspliced⟩ := hr.spliced hc hs he
    simp only [uses, List.forall_mem_singleton]
    exact ⟨u, _, hu, rfl, hspliced⟩
  | lambda _ ih =>
    rw [uses, List.forall_mem_map]
    exact ih (Nat.le_succ_of_le hs)
  | group _ ih => exact ih hs
  | apply hfn _ hf ha =>
    rw [uses, List.forall_mem_append, List.forall_mem_map, List.forall_mem_map]
    exact ⟨hf hs, ha (Nat.le_trans hs hfn.le)⟩

theorem plain_expand (hr : r.Sound) (hs : r.supply.id ≤ s.id)
    (h : p.Denotes r.program r.patience scope s t s₁) : (p.expand r.meaning).Plain := by
  induction h with
  | bound _ => trivial
  | free _ => trivial
  | number hle => exact hle
  | truth => trivial
  | name hc he =>
    obtain ⟨u, hu, -⟩ := hr.spliced hc hs he
    rw [expand_name hu]
    exact u.plain_phrase
  | lambda _ ih => exact ih (Nat.le_succ_of_le hs)
  | group _ ih => exact ih hs
  | apply hfn _ hf ha => exact ⟨hf hs, ha (Nat.le_trans hs hfn.le)⟩

theorem phrase_expand {program' : Program} (hr : r.Sound) (hs : r.supply.id ≤ s.id)
    (h : p.Denotes r.program r.patience scope s t s₁)
    (h' : (p.expand r.meaning).Denotes program' patience' scope' s' t' s₁') :
    t'.phrase = t.phrase := by
  have hword {scope : List Variable} {s s₁ : Supply} {word : String} {t : Term}
      (h : (identifier word).Denotes program' patience' scope s t s₁) :
      t.phrase = .identifier word := by
    have hvar : (Term.var 0 ⟨word, false, 0⟩).phrase.Denotes program' patience' scope s t s₁ := h
    exact phrase_eq_of_denotes hvar
  induction h generalizing scope' s' t' s₁' with
  | bound hf => rw [hword h', hword (.bound hf)]
  | free hf => rw [hword h', hword (.free hf)]
  | number _ =>
    cases h' with
    | number _ => rw [phrase_numeral, phrase_numeral]
  | truth =>
    cases h' with
    | truth => rw [phrase_truth, phrase_truth]
  | name hc he =>
    obtain ⟨u, hu, hspliced⟩ := hr.spliced hc hs he
    rw [expand_name hu] at h'
    rw [phrase_eq_of_denotes h', hspliced.phrase]
  | lambda _ ih =>
    cases h' with
    | lambda hb => simp [Term.phrase, ih (Nat.le_succ_of_le hs) hb]
  | group _ ih =>
    cases h' with
    | group hi => exact ih hs hi
  | apply hfn _ hf ha =>
    cases h' with
    | apply hfn' harg' =>
      simp [Term.phrase, hf hs hfn', ha (Nat.le_trans hs hfn.le) harg']

/-- If all names mean closed name-faithful terms, the two terms are alpha-equivalent. -/
theorem byName_expand (hr : r.Sound) (hs : r.supply.id ≤ s.id)
    (h : p.Denotes r.program r.patience scope s t s₁)
    (hmeaning : ∀ use ∈ p.uses, ∀ u, r.meaning use.2 = some u → u.Closed ∧ u.NameFaithful)
    (hp : Parallel scope scope s.id) (hp' : Parallel scope scope' s'.id)
    (h' : (p.expand r.meaning).Denotes {} 0 scope' s' t' s₁') :
    (t'.namelessIn (scope'.map Variable.id)).byName =
      (t.namelessIn (scope.map Variable.id)).byName := by
  induction h generalizing scope' s' t' s₁' with
  | bound hf =>
    rw [byName_of_denotes_identifier h' hp', byName_of_denotes_identifier (.bound hf) hp, hp'.names,
      hp'.length_eq]
  | free hf =>
    rw [byName_of_denotes_identifier h' hp', byName_of_denotes_identifier (.free hf) hp, hp'.names,
      hp'.length_eq]
  | number _ =>
    cases h' with
    | number _ => rw [namelessIn_numeral, namelessIn_numeral]
  | truth =>
    cases h' with
    | truth => rw [namelessIn_truth, namelessIn_truth]
  | @name scope _ _ word _ _ hc he =>
    obtain ⟨u, hu, hspliced⟩ := hr.spliced hc hs he
    obtain ⟨hclosed, hfaithful⟩ := hmeaning ([], word) (List.mem_singleton_self _) u hu
    obtain ⟨bound, hscoped⟩ := hr.wellFormed_meaning hu
    rw [expand_name hu] at h'
    have hself : Parallel scope' scope' s'.id := ⟨rfl, hp'.distinct, hp'.flagged, hp'.below⟩
    have hcopy := (hspliced.closed hclosed).namelessIn_append hspliced.resolved
      (scope.map Variable.id)
    rw [byName_of_denotes_closed h' hscoped.scopedIn hclosed hfaithful hself]
    exact congrArg Nameless.byName (hcopy.trans hspliced.nameless).symm
  | lambda _ ih =>
    cases h' with
    | lambda hb =>
      rw [uses, List.forall_mem_map] at hmeaning
      exact congrArg Nameless.lam
        (ih (Nat.le_succ_of_le hs) hmeaning (hp.cons _) (hp'.cons _) hb)
  | group _ ih =>
    cases h' with
    | group hi => exact ih hs hmeaning hp hp' hi
  | apply hfn _ hf ha =>
    cases h' with
    | apply hfn' harg' =>
      rw [uses, List.forall_mem_append, List.forall_mem_map, List.forall_mem_map] at hmeaning
      have hf := hf hs hmeaning.1 hp hp' hfn'
      have ha := ha (Nat.le_trans hs hfn.le) hmeaning.2 (hp.mono hfn.le) (hp'.mono hfn'.le) harg'
      simp only [namelessIn, Nameless.byName, hf, ha]

/-- If all names mean closed terms, whatever the term brings in was drawn while it was read. -/
theorem introduces (hr : r.Sound) (hs : r.supply.id ≤ s.id)
    (h : p.Denotes r.program r.patience scope s t s₁)
    (hmeaning : ∀ use ∈ p.uses, ∀ u, r.meaning use.2 = some u → u.Closed)
    (hscope : ∀ head ∈ scope, head.bound = true) : Introduces s.id s₁.id t := by
  induction h with
  | bound hf =>
    have hb := hscope _ (List.mem_of_find?_eq_some hf)
    exact ⟨Nat.le_refl _, by simp [introduced, hb], by simp [introduced, hb]⟩
  | free _ => exact ⟨Nat.le_succ _, by simp [introduced], by simp [introduced]⟩
  | @number _ s digits _ =>
    have hid := (numeral_built [] (Text.Decimal.value digits.toList) s (Nat.le_refl s.id)).2
    have hids := introduced_numeral (Text.Decimal.value digits.toList) s
    refine ⟨by simp [hid], by simp [hids], by simp [hids, hid]⟩
  | @truth _ s value =>
    have hid : (Term.truth value s).2.id = s.id + 2 := rfl
    have hids := introduced_truth value s
    refine ⟨by simp [hid], by simp [hids], by simp [hids, hid]⟩
  | @name _ s s₁ word c u hc he =>
    obtain ⟨v, hv, hspliced⟩ := hr.spliced hc hs he
    have hclosed := hspliced.closed (hmeaning ([], word) (List.mem_singleton_self _) v hv)
    have hle := c.le_leaves_execute r.patience s
    rw [Attempt.leaves, he] at hle
    exact ((refresh_copied u s₁).drawn.introduces hclosed).mono hle
  | lambda _ ih =>
    rw [uses, List.forall_mem_map] at hmeaning
    exact (ih (Nat.le_succ_of_le hs) hmeaning (List.forall_mem_cons.mpr ⟨rfl, hscope⟩)).lam rfl
  | group _ ih => exact ih hs hmeaning hscope
  | apply hfn _ hf ha =>
    rw [uses, List.forall_mem_append, List.forall_mem_map, List.forall_mem_map] at hmeaning
    exact (hf hs hmeaning.1 hscope).app (ha (Nat.le_trans hs hfn.le) hmeaning.2 hscope)

end Denotes

end Phrase

end LambdaCalc
