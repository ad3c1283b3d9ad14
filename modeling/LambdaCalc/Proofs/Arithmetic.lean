import LambdaCalc.Proofs.Expansion
import LambdaCalc.Proofs.Iteration

namespace LambdaCalc

namespace Nameless

/-- The reading of `\m . \n . \f . \x . ((m) f) ((n) f) x`. -/
def addition : Nameless :=
  lam (lam (lam (lam (app (app (index 3) (index 1)) (app (app (index 2) (index 1)) (index 0))))))

/-- The reading of `\m . \n . \f . (m) (n) f`. -/
def multiplication : Nameless :=
  lam (lam (lam (app (index 2) (app (index 1) (index 0)))))

variable (m n : ℕ)

theorem addition_steps :
    NormalSteps 6 (app (app addition (numeral m)) (numeral n)) (numeral (m + n)) := by
  have hfirst : NormalStep (app addition (numeral m))
      (lam (lam (lam (app (app (numeral m) (index 1))
        (app (app (index 2) (index 1)) (index 0)))))) := by
    have h : NormalStep (app addition (numeral m)) _ := .contract _ _
    simpa [subst, lift_numeral] using h
  have hsecond : NormalStep (app (lam (lam (lam (app (app (numeral m) (index 1))
        (app (app (index 2) (index 1)) (index 0)))))) (numeral n))
      (lam (lam (app (app (numeral m) (index 1))
        (app (app (numeral n) (index 1)) (index 0))))) := by
    have h := NormalStep.contract (lam (lam (app (app (numeral m) (index 1))
      (app (app (index 2) (index 1)) (index 0))))) (numeral n)
    simpa [subst, lift_numeral, subst_numeral] using h
  have hbody : NormalSteps 4
      (app (app (numeral m) (index 1)) (app (app (numeral n) (index 1)) (index 0)))
      ((app (index 1))^[m] ((app (index 1))^[n] (index 0))) :=
    (numeral_steps m (index 1) _).trans
      ((numeral_steps n (index 1) (index 0)).iterate_app m rfl rfl)
  rw [← Function.iterate_add_apply] at hbody
  exact .head (.fn _ rfl hfirst) (.head hsecond hbody.lam.lam)

theorem iterate_numeral_steps :
    NormalSteps (2 * m) ((app (app (numeral n) (index 1)))^[m] (index 0))
      ((app (index 1))^[m * n] (index 0)) := by
  induction m with
  | zero =>
    rw [Nat.zero_mul]
    exact .refl _
  | succ m ih =>
    have h := (numeral_steps n (index 1) _).trans (ih.iterate_app n rfl rfl)
    rw [← Function.iterate_add_apply, Nat.add_comm n, ← Nat.succ_mul, Nat.add_comm 2,
      ← Nat.mul_succ] at h
    rwa [Function.iterate_succ_apply']

theorem multiplication_steps :
    NormalSteps (3 + 2 * m) (app (app multiplication (numeral m)) (numeral n))
      (numeral (m * n)) := by
  have hfirst : NormalStep (app multiplication (numeral m))
      (lam (lam (app (numeral m) (app (index 1) (index 0))))) := by
    have h : NormalStep (app multiplication (numeral m)) _ := .contract _ _
    simpa [subst, lift_numeral] using h
  have hsecond : NormalStep (app (lam (lam (app (numeral m) (app (index 1) (index 0)))))
      (numeral n)) (lam (app (numeral m) (app (numeral n) (index 0)))) := by
    have h := NormalStep.contract (lam (app (numeral m) (app (index 1) (index 0)))) (numeral n)
    simpa [subst, lift_numeral, subst_numeral] using h
  have hthird : NormalStep (app (numeral m) (app (numeral n) (index 0)))
      (lam ((app (app (numeral n) (index 1)))^[m] (index 0))) := by
    have h := numeral_step m (app (numeral n) (index 0))
    simpa [lift, lift_numeral] using h
  rw [Nat.add_comm]
  exact .head (.fn _ rfl hfirst) (.head hsecond (.head (.lam hthird)
    (iterate_numeral_steps m n).lam.lam))

end Nameless

namespace Attempt

theorem exists_of_outcome_eq_ok {α : Type} {work : Attempt α} {s : Supply} {a : α}
    (h : work.outcome s = .ok a) : ∃ s', work s = .ok a s' := by
  rw [outcome] at h
  split at h
  · next s' hs =>
    cases h
    exact ⟨s', hs⟩
  · cases h

end Attempt

namespace Term

/-- The names of the lambdas with which a term begins. An application takes one of them off its
function. -/
def outerNames : Term → List String
  | var _ _ => []
  | lam _ head body => head.name :: body.outerNames
  | app _ fn _ => fn.outerNames.drop 1

variable {c d id : Nat} {t t' : Term}

theorem Copied.outerNames_eq {renewed : List (Nat × Variable)} (h : Copied renewed c d t t') :
    t'.outerNames = t.outerNames := by
  induction h with
  | renewed _ => rfl
  | kept _ => rfl
  | lam _ ih => simp [outerNames, ih]
  | app _ _ hf _ => simp [outerNames, hf]

/-- What is put in the place of an occurrence can only add lambdas at the end. -/
theorem Grafted.outerNames_prefix {copy : Nat → Nat → Term → Prop} (h : Grafted id copy c d t t') :
    t.outerNames <+: t'.outerNames := by
  induction h with
  | hit _ _ _ => exact List.nil_prefix
  | miss _ => exact List.prefix_refl _
  | shadow _ => exact List.prefix_refl _
  | lam _ _ ih => exact (List.prefix_cons_inj _).mpr ih
  | app _ _ hf _ => exact hf.drop 1

theorem Reduced.outerNames_prefix (h : Reduced c d t t') : t.outerNames <+: t'.outerNames := by
  induction h with
  | contract hg => exact hg.outerNames_prefix
  | lam _ ih => exact (List.prefix_cons_inj _).mpr ih
  | fn _ _ ih => exact ih.drop 1
  | arg _ _ _ _ => exact List.prefix_refl _

theorem outerNames_stepTimes (k : Nat) (t : Term) (s : Supply) :
    t.outerNames <+: (t.stepTimes k s).1.outerNames := by
  induction k with
  | zero => exact List.prefix_refl _
  | succ k ih =>
    rw [stepTimes_succ]
    rcases step_spec (t.stepTimes k s).1 (t.stepTimes k s).2 with ⟨_, hs⟩ | ⟨_, hred⟩
    · rwa [hs]
    · exact ih.trans hred.outerNames_prefix

/-- An occurrence is written with the name of the lambda to which its index leads. -/
theorem ScopedIn.name_of_index {scope : List Variable} {bound n i : Nat} {v : Variable}
    (h : (var n v).ScopedIn scope bound)
    (hi : (var n v).namelessIn (scope.map Variable.id) = .index i) :
    ∃ head, scope[i]? = some head ∧ head.name = v.name := by
  simp only [namelessIn] at hi
  split at hi
  · next hmem =>
    cases hi
    have hlt := List.idxOf_lt_length_of_mem hmem
    rw [List.length_map] at hlt
    refine ⟨scope[(scope.map Variable.id).idxOf v.id], List.getElem?_eq_getElem hlt, ?_⟩
    have ho : ⟨v, scope⟩ ∈ (var n v).occurrences scope := List.mem_singleton_self _
    refine h.name_of_head ho (List.getElem_mem hlt) ?_
    exact (List.getElem_map Variable.id).symm.trans
      (List.getElem_idxOf (List.idxOf_lt_length_of_mem hmem))
  · cases hi

theorem exists_var_of_namelessIn {scope : List Nat} {i : Nat} (h : t.namelessIn scope = .index i) :
    ∃ n v, t = var n v := by
  cases t with
  | var n v => exact ⟨n, v, rfl⟩
  | lam _ _ _ => cases h
  | app _ _ _ => cases h

theorem exists_lam_of_namelessIn {scope : List Nat} {body : Nameless}
    (h : t.namelessIn scope = .lam body) :
    ∃ n head b, t = lam n head b ∧ b.namelessIn (head.id :: scope) = body := by
  cases t with
  | var n v =>
    simp only [namelessIn] at h
    split at h <;> cases h
  | lam n head b => exact ⟨n, head, b, rfl, Nameless.lam.inj h⟩
  | app _ _ _ => cases h

theorem exists_app_of_namelessIn {scope : List Nat} {fn arg : Nameless}
    (h : t.namelessIn scope = .app fn arg) :
    ∃ n f a, t = app n f a ∧ f.namelessIn scope = fn ∧ a.namelessIn scope = arg := by
  cases t with
  | var n v =>
    simp only [namelessIn] at h
    split at h <;> cases h
  | lam _ _ _ => cases h
  | app n f a => exact ⟨n, f, a, rfl, (Nameless.app.inj h).1, (Nameless.app.inj h).2⟩

/-- What is read as the body of a numeral is written with the names of the lambdas around it. -/
theorem phrase_of_iterate {f x : Variable} {bound n : Nat} (ht : t.ScopedIn [x, f] bound)
    (h : t.namelessIn [x.id, f.id] = (Nameless.app (.index 1))^[n] (.index 0)) :
    t.phrase = (Phrase.apply (.identifier f.name))^[n] (.identifier x.name) := by
  induction n generalizing t with
  | zero =>
    obtain ⟨k, v, rfl⟩ := exists_var_of_namelessIn h
    obtain ⟨head, hhead, hname⟩ := ht.name_of_index h
    obtain rfl : x = head := by simpa using hhead
    exact congrArg Phrase.identifier hname.symm
  | succ n ih =>
    rw [Function.iterate_succ_apply'] at h ⊢
    obtain ⟨k, fn, a, rfl, hfn, ha⟩ := exists_app_of_namelessIn h
    obtain ⟨m, v, rfl⟩ := exists_var_of_namelessIn hfn
    obtain ⟨head, hhead, hname⟩ := ht.fn.name_of_index hfn
    obtain rfl : f = head := by simpa using hhead
    rw [phrase, ih ht.arg ha, phrase, hname]

/-- A term that is read as a numeral and begins with the names of one is written as one. -/
theorem phrase_of_nameless_numeral {u : Term} {bound n : Nat} (hu : u.ScopedIn [] bound)
    (hread : u.nameless = .numeral n) (hnames : ["f", "x"] <+: u.outerNames) (s : Supply) :
    u.phrase = (numeral n s).1.phrase := by
  obtain ⟨k, f, b, rfl, hb⟩ := exists_lam_of_namelessIn hread
  obtain ⟨m, x, c, rfl, hc⟩ := exists_lam_of_namelessIn hb
  simp only [outerNames, List.cons_prefix_cons] at hnames
  obtain ⟨hf, hx, -⟩ := hnames
  rw [phrase_numeral, phrase, phrase, phrase_of_iterate hu.body.body hc, ← hf, ← hx]

/-- The text of a function is read and applied to two numerals. -/
def applied (text : String) (m n : Nat) : Attempt Term := do
  let fn ← ofText text
  let m ← numeral m
  let n ← numeral n
  return ← newApp (← newApp fn m) n

/-- The function that is written as `text` computes the operation on numerals: the reduction to
normal form takes as many steps as told, and answers the numeral of the result, as far as names and
the places of variables tell. -/
def Computes (text : String) (operation steps : Nat → Nat → Nat) : Prop :=
  ∀ m n s, ∃ t s₁, applied text m n s = .ok t s₁ ∧ t.stepsToNormal s₁ = steps m n ∧
    ∀ budget patience, (if budget = 0 then steps m n < patience else steps m n ≤ budget) →
      ∃ u s₂, (⟨0, budget⟩ : BetaReduction).execute patience t s₁ = .ok u s₂ ∧
        ∀ s', u.print = (numeral (operation m n) s').1.print ∧
          u.AlphaEq (numeral (operation m n) s').1

/-- The first step of the function on two numerals leads to a term that begins as a numeral does. -/
def FrontsNumeral (fn : Term) : Prop :=
  ∀ {c d i j : Nat} {m n t' : Term}, ["f", "x"] <+: m.outerNames →
    Reduced c d (app i (app j fn m) n) t' → ["f", "x"] <+: t'.outerNames

theorem stepTimes_scopedIn (k : Nat) {s : Supply} (ht : t.ScopedIn [] s.id) :
    (t.stepTimes k s).1.ScopedIn [] (t.stepTimes k s).2.id := by
  induction k with
  | zero => exact ht
  | succ k ih =>
    rw [stepTimes_succ]
    rcases step_spec (t.stepTimes k s).1 (t.stepTimes k s).2 with ⟨_, hs⟩ | ⟨_, hred⟩
    · rwa [hs]
    · exact hred.scopedIn ih

theorem applied_eq_ok {text : String} {fn : Term} {s s₁ : Supply} (h : ofText text s = .ok fn s₁)
    (m n : Nat) :
    let m' := numeral m s₁
    let n' := numeral n m'.2
    applied text m n s = .ok (app (n'.2.node + 1) (app n'.2.node fn m'.1) n'.1)
      ⟨n'.2.id, n'.2.node + 2⟩ := by
  change EStateM.bind _ _ _ = _
  unfold EStateM.bind
  rw [h]
  rfl

/-- A function whose reading reduces to the right numeral computes its operation. -/
theorem computes_of_normalSteps {text : String} {reading : Nameless}
    {operation steps : Nat → Nat → Nat} (hpos : ∀ m n, 0 < steps m n)
    (hsteps : ∀ m n, Nameless.NormalSteps (steps m n)
      (.app (.app reading (.numeral m)) (.numeral n)) (.numeral (operation m n)))
    (hfn : ∀ s, ∃ fn s₁, ofText text s = .ok fn s₁ ∧ fn.Built s.id [] s.id s₁.id ∧
      fn.nameless = reading ∧ fn.FrontsNumeral) : Computes text operation steps := by
  intro m n s
  obtain ⟨fn, s₁, hread, hbuilt, hnameless, hfront⟩ := hfn s
  have happlied := applied_eq_ok hread m n
  obtain ⟨hm, hmid⟩ := numeral_built [] m s₁ hbuilt.drawn.le
  obtain ⟨hn, hnid⟩ := numeral_built [] n (numeral m s₁).2
    (hbuilt.drawn.le.trans (hmid ▸ hm.drawn.le))
  rw [← hmid] at hm
  rw [← hnid] at hn
  dsimp only at happlied
  generalize ht : app _ _ _ = t at happlied
  generalize hs : Supply.mk _ _ = s₃ at happlied
  have hscoped : t.ScopedIn [] s₃.id := by
    rw [← ht, ← hs]
    exact (((hbuilt.app hm le_rfl).app hn le_rfl).wellFormed le_rfl).scopedIn
  have hreading : t.nameless =
      .app (.app reading (.numeral m)) (.numeral n) := by
    rw [← ht, ← hnameless]
    simp only [nameless, namelessIn, namelessIn_numeral, Nameless.numeral]
  have hnormal := Nameless.hasRedex_numeral (operation m n)
  obtain ⟨hcount, hanswer⟩ :=
    stepsToNormal_of_normalSteps hscoped (hreading ▸ hsteps m n) hnormal
  have hnames : ["f", "x"] <+: (t.stepTimes (steps m n) s₃).1.outerNames := by
    obtain ⟨k, hk⟩ := Nat.exists_eq_succ_of_ne_zero (hpos m n).ne'
    have hfirst : ["f", "x"] <+: (t.step s₃).1.outerNames := by
      rcases step_spec t s₃ with ⟨hr, _⟩ | ⟨_, hred⟩
      · have hlt : ((0 : ℕ) : ℕ∞) < t.stepsToNormal s₃ := hcount ▸ Nat.cast_lt.mpr (hpos m n)
        have hredex : t.hasRedex = true := hasRedex_of_lt_stepsToNormal hlt
        rw [hr] at hredex
        cases hredex
      · rw [← ht] at hred
        exact ht ▸ hfront ⟨_, rfl⟩ hred
    rw [hk]
    exact hfirst.trans (outerNames_stepTimes k _ _)
  refine ⟨t, s₃, happlied, hcount, fun budget patience hbudget => ?_⟩
  have houtcome :=
    BetaReduction.outcome_execute_of_normal budget (steps m n) patience t s₃ hcount hbudget
  obtain ⟨s₄, hexecute⟩ := Attempt.exists_of_outcome_eq_ok houtcome
  refine ⟨_, s₄, hexecute, fun s' => ⟨?_, ?_⟩⟩
  · apply print_eq_of_sameNames
    rw [sameNames_iff]
    exact phrase_of_nameless_numeral (stepTimes_scopedIn _ hscoped) hanswer hnames s'
  · rw [AlphaEq, hanswer, nameless, namelessIn_numeral]
    rfl

def additionText : String := "\\m . \\n . \\f . \\x . ((m) f) ((n) f) x"

def multiplicationText : String := "\\m . \\n . \\f . (m) (n) f"

/-- A term that is written as `additionText`. -/
def additionTerm : Term :=
  let m : Variable := ⟨"m", true, 0⟩
  let n : Variable := ⟨"n", true, 1⟩
  let f : Variable := ⟨"f", true, 2⟩
  let x : Variable := ⟨"x", true, 3⟩
  lam 0 m (lam 1 n (lam 2 f (lam 3 x
    (app 4 (app 5 (var 6 m) (var 7 f)) (app 8 (app 9 (var 10 n) (var 11 f)) (var 12 x))))))

/-- A term that is written as `multiplicationText`. -/
def multiplicationTerm : Term :=
  let m : Variable := ⟨"m", true, 0⟩
  let n : Variable := ⟨"n", true, 1⟩
  let f : Variable := ⟨"f", true, 2⟩
  lam 0 m (lam 1 n (lam 2 f (app 3 (var 4 m) (app 5 (var 6 n) (var 7 f)))))

theorem exists_addition (s : Supply) : ∃ fn s₁, ofText additionText s = .ok fn s₁ ∧
    fn.Built s.id [] s.id s₁.id ∧ fn.nameless = .addition ∧ fn.FrontsNumeral := by
  have hprint : additionTerm.print = additionText := by
    rw [print_eq_text]
    decide
  have htokens := tokenized_print (t := additionTerm) (by decide)
  rw [hprint] at htokens
  have hd : additionTerm.phrase.Denotes {} 0 [] s _ _ :=
    .lambda (.lambda (.lambda (.lambda (.apply (.apply (.bound rfl) (.bound rfl))
      (.apply (.apply (.bound rfl) (.bound rfl)) (.bound rfl))))))
  refine ⟨_, _, ofText_eq_ok_iff.mpr ⟨_, htokens, hd⟩, hd.built (by simp) le_rfl, ?_, ?_⟩
  · simp [nameless, namelessIn, Nat.add_assoc, Nameless.addition]
  · intro c d i j m n t' _ hred
    exact hred.outerNames_prefix

theorem exists_multiplication (s : Supply) : ∃ fn s₁, ofText multiplicationText s = .ok fn s₁ ∧
    fn.Built s.id [] s.id s₁.id ∧ fn.nameless = .multiplication ∧ fn.FrontsNumeral := by
  have hprint : multiplicationTerm.print = multiplicationText := by
    rw [print_eq_text]
    decide
  have htokens := tokenized_print (t := multiplicationTerm) (by decide)
  rw [hprint] at htokens
  have hd : multiplicationTerm.phrase.Denotes {} 0 [] s _ _ :=
    .lambda (.lambda (.lambda (.apply (.bound rfl) (.apply (.bound rfl) (.bound rfl)))))
  refine ⟨_, _, ofText_eq_ok_iff.mpr ⟨_, htokens, hd⟩, hd.built (by simp) le_rfl, ?_, ?_⟩
  · simp [nameless, namelessIn, Nat.add_assoc, Nameless.multiplication]
  · intro c d i j m n t' hm hred
    -- the first argument takes the place of the variable that is applied in the body
    cases hred with
    | fn _ hfn =>
      cases hfn with
      | contract hg =>
        cases hg with
        | shadow hid => simp at hid
        | lam _ hg =>
          cases hg with
          | shadow hid => simp [Nat.add_assoc] at hid
          | lam _ hg =>
            cases hg with
            | app hg _ =>
              cases hg with
              | hit _ _ hcopy =>
                rw [← hcopy.outerNames_eq] at hm
                exact (List.prefix_cons_inj "f").mpr (hm.drop 1)
              | miss hno => exact absurd ⟨rfl, rfl⟩ hno
      | fn hl _ => cases hl
      | arg hl _ _ => cases hl
    | arg _ hr _ => cases hr

/-- Adding two numerals takes six steps, and multiplying them three and two more for each time that
the second numeral is used. The reduction to normal form answers the numeral of the sum and of the
product within every budget that allows these steps. -/
theorem computes_sum_and_product :
    Computes additionText (fun m n => m + n) (fun _ _ => 6) ∧
      Computes multiplicationText (fun m n => m * n) (fun m _ => 3 + 2 * m) := by
  constructor
  · exact computes_of_normalSteps (fun _ _ => Nat.succ_pos 5) Nameless.addition_steps
      exists_addition
  · exact computes_of_normalSteps (fun m _ => by omega) Nameless.multiplication_steps
      exists_multiplication

/-- Two and three make five in six steps, and six in seven. -/
theorem computes_two_and_three :
    (∃ t s u s', applied additionText 2 3 {} = .ok t s ∧
      (⟨0, 6⟩ : BetaReduction).execute 0 t s = .ok u s' ∧
      u.print = "\\f . \\x . (f) (f) (f) (f) (f) x") ∧
    ∃ t s u s', applied multiplicationText 2 3 {} = .ok t s ∧
      (⟨0, 7⟩ : BetaReduction).execute 0 t s = .ok u s' ∧
      u.print = "\\f . \\x . (f) (f) (f) (f) (f) (f) x" := by
  obtain ⟨hsum, hproduct⟩ := computes_sum_and_product
  constructor
  · obtain ⟨t, s, ht, -, hexecute⟩ := hsum 2 3 {}
    obtain ⟨u, s', hu, hprint⟩ := hexecute 6 0 (by decide)
    refine ⟨t, s, u, s', ht, hu, ?_⟩
    rw [(hprint {}).1, print_eq_text]
    decide
  · obtain ⟨t, s, ht, -, hexecute⟩ := hproduct 2 3 {}
    obtain ⟨u, s', hu, hprint⟩ := hexecute 7 0 (by decide)
    refine ⟨t, s, u, s', ht, hu, ?_⟩
    rw [(hprint {}).1, print_eq_text]
    decide

end Term

end LambdaCalc
