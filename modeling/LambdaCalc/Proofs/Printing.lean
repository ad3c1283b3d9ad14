import LambdaCalc.Term.Printer
import Mathlib.Logic.Function.Iterate

namespace LambdaCalc.Term

/-- What a loop that writes has before it: the items that are still pending, the next one on top
of the stack, which is its end, and the text so far. -/
structure Writer where
  stack : Array Pending
  out : String

/-- The items on a stack in the order in which they are written. -/
def Pending.ofStack (stack : Array Pending) : List Pending := stack.toList.reverse

theorem Pending.ofStack_push (rest : Array Pending) (item : Pending) :
    ofStack (rest.push item) = item :: ofStack rest := by
  simp [ofStack]

namespace Writer

/-- One turn of the loop. It takes an item off the stack and writes it, or how it begins, and then
it pushes what is left of the item, of two parts the later one first. -/
def turn (w : Writer) : Writer :=
  let rest := w.stack.pop
  match w.stack.back? with
  | none => w
  | some (.text s) => ⟨rest, w.out ++ s⟩
  | some (.term (var _ v)) => ⟨rest, w.out ++ v.name⟩
  | some (.term (lam _ head body)) =>
      ⟨rest.push (.term body), w.out ++ "\\" ++ head.name ++ " . "⟩
  | some (.term (app _ fn arg)) =>
      ⟨((rest.push (.term arg)).push (.text ") ")).push (.term fn), w.out ++ "("⟩

def pending (w : Writer) : List Pending := Pending.ofStack w.stack

def weight (w : Writer) : Nat := Pending.totalWeight w.pending

/-- What the loop will have written in the end. -/
def result (w : Writer) : String := write w.pending w.out

variable {w : Writer}

theorem result_of_empty (h : w.stack = #[]) : w.result = w.out := by
  rw [result, pending, h, Pending.ofStack, List.reverse_nil, write]

theorem exists_push (h : w.stack ≠ #[]) :
    ∃ (rest : Array Pending) (item : Pending), w.stack = rest.push item := by
  have hsize : w.stack.size ≠ 0 := by simpa using h
  exact Array.eq_push_of_size_ne_zero hsize

theorem turn_of_empty (h : w.stack = #[]) : w.turn = w := by
  simp [turn, h]

/-- Every pending item weighs something. -/
theorem weight_eq_zero_iff : w.weight = 0 ↔ w.stack = #[] := by
  constructor
  · intro h
    by_contra hne
    obtain ⟨rest, item, hstack⟩ := exists_push hne
    rw [weight, pending, hstack, Pending.ofStack_push, Pending.totalWeight] at h
    cases item with
    | text s => simp [Pending.weight] at h
    | term t => cases t <;> simp [Pending.weight, Term.weight] at h
  · intro h
    simp [weight, pending, h, Pending.ofStack, Pending.totalWeight]

/-- A turn can make the stack grow, but it makes lighter what is on it. What the loop comes to in
the end stays the same, and what was written is only added to. -/
theorem turn_spec (h : w.stack ≠ #[]) :
    w.turn.result = w.result ∧ w.turn.weight + 1 = w.weight ∧
      ∃ more, w.turn.out = w.out ++ more := by
  obtain ⟨rest, item, hstack⟩ := exists_push h
  obtain ⟨stack, out⟩ := w
  subst hstack
  simp only [turn, result, weight, pending, Array.back?_push, Array.pop_push, Pending.ofStack_push]
  cases item with
  | text s =>
    rw [write]
    exact ⟨rfl, Nat.add_comm _ _, s, rfl⟩
  | term t =>
    cases t with
    | var n v =>
      rw [write]
      exact ⟨rfl, Nat.add_comm _ _, v.name, rfl⟩
    | lam n head body =>
      rw [write]
      simp only [Pending.ofStack_push, Pending.totalWeight, Pending.weight, Term.weight, true_and]
      exact ⟨by omega, "\\" ++ head.name ++ " . ", by simp [String.append_assoc]⟩
    | app n fn arg =>
      rw [write]
      simp only [Pending.ofStack_push, Pending.totalWeight, Pending.weight, Term.weight, true_and]
      exact ⟨by omega, "(", rfl⟩

/-- After any number of turns as much weight is gone, and the loop still comes to the same. -/
theorem iterate_turn (w : Writer) (k : Nat) :
    (turn^[k] w).result = w.result ∧ (turn^[k] w).weight = w.weight - k ∧
      ∃ more, (turn^[k] w).out = w.out ++ more := by
  induction k with
  | zero => exact ⟨rfl, rfl, "", by simp⟩
  | succ k ih =>
    obtain ⟨hresult, hweight, more, hout⟩ := ih
    rw [Function.iterate_succ_apply']
    by_cases hempty : (turn^[k] w).stack = #[]
    · have hzero := weight_eq_zero_iff.mpr hempty
      rw [turn_of_empty hempty]
      exact ⟨hresult, by omega, more, hout⟩
    · obtain ⟨hresult', hweight', more', hout'⟩ := turn_spec hempty
      refine ⟨hresult'.trans hresult, by omega, more ++ more', ?_⟩
      rw [hout', hout, String.append_assoc]

end Writer

/-- A term is printed as its text, which is defined part by part. Whatever was written before, the
loop ends after as many turns as the term weighs and not before, and it has then added the text to
it. After any number of turns it has added a front of the text. -/
theorem print_by_turns (t : Term) :
    t.print = t.text ∧
    ∀ out, write [.term t] out = out ++ t.text ∧
      let w : Writer := ⟨#[.term t], out⟩
      Writer.turn^[t.weight] w = ⟨#[], out ++ t.text⟩ ∧
      ∀ k, ((Writer.turn^[k] w).stack = #[] ↔ t.weight ≤ k) ∧
        ∃ front behind, t.text = front ++ behind ∧ (Writer.turn^[k] w).out = out ++ front := by
  refine ⟨print_eq_text t, fun out => ?_⟩
  let w : Writer := ⟨#[.term t], out⟩
  have hresult : w.result = out ++ t.text := by
    rw [Writer.result, write_eq]
    simp [w, Writer.pending, Pending.ofStack, Pending.toText]
  have hweight : w.weight = t.weight := by
    simp [w, Writer.weight, Writer.pending, Pending.ofStack, Pending.totalWeight, Pending.weight]
  have hend (k : Nat) : (Writer.turn^[k] w).stack = #[] ↔ t.weight ≤ k := by
    rw [← Writer.weight_eq_zero_iff, (w.iterate_turn k).2.1, hweight]
    omega
  refine ⟨hresult, ?_, fun k => ⟨hend k, ?_⟩⟩
  · have hstack := (hend t.weight).mpr (Nat.le_refl _)
    have hout := (w.iterate_turn t.weight).1
    rw [Writer.result_of_empty hstack, hresult] at hout
    change Writer.turn^[t.weight] w = _
    rw [← hstack, ← hout]
  · obtain ⟨hsame, -, front, hout⟩ := w.iterate_turn k
    rw [hresult, Writer.result, write_eq, hout, String.append_assoc,
      String.append_right_inj] at hsame
    exact ⟨front, _, hsame.symm, hout⟩

end LambdaCalc.Term
