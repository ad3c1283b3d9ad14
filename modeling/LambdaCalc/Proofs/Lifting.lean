import LambdaCalc.Proofs.Nameless

namespace LambdaCalc.Nameless

variable {i n m d k : Nat}

theorem lift_index_of_lt (n : Nat) (h : i < d) : (index i).lift n d = index i := by
  rw [lift, if_pos h]

theorem lift_index_of_le (n : Nat) (h : d ≤ i) : (index i).lift n d = index (i + n) := by
  rw [lift, if_neg (Nat.not_lt.mpr h)]

theorem subst_index_of_lt (a : Nameless) (h : i < k) : (index i).subst a k = index i := by
  rw [subst, if_pos h]

theorem subst_index_self (a : Nameless) (k : Nat) : (index k).subst a k = a.lift k 0 := by
  rw [subst, if_neg (Nat.lt_irrefl k), if_pos rfl]

theorem subst_index_of_gt (a : Nameless) (h : k < i) : (index i).subst a k = index (i - 1) := by
  rw [subst, if_neg (Nat.lt_asymm h), if_neg (Nat.ne_of_gt h)]

/-- Room that is made inside the room made before is one larger room. -/
theorem lift_lift_of_le (t : Nameless) (hd : d ≤ k) (hk : k ≤ d + m) :
    (t.lift m d).lift n k = t.lift (m + n) d := by
  induction t generalizing d k with
  | index i =>
    rcases Nat.lt_or_ge i d with hi | hi
    · simp (disch := omega) only [lift_index_of_lt]
    · simp (disch := omega) only [lift_index_of_le, Nat.add_assoc]
  | free name id => rfl
  | lam body ih => simp only [lift, ih (Nat.succ_le_succ hd) (by omega : k + 1 ≤ d + 1 + m)]
  | app fn arg hf ha => simp only [lift, hf hd hk, ha hd hk]

/-- Room that is made further out can be made first. -/
theorem lift_lift_comm (t : Nameless) (h : d ≤ k) :
    (t.lift m d).lift n (k + m) = (t.lift n k).lift m d := by
  induction t generalizing d k with
  | index i =>
    rcases Nat.lt_or_ge i d with hi | hi
    · simp (disch := omega) only [lift_index_of_lt]
    · rcases Nat.lt_or_ge i k with hk | hk
      · simp (disch := omega) only [lift_index_of_le, lift_index_of_lt]
      · simp (disch := omega) only [lift_index_of_le, Nat.add_right_comm]
  | free name id => rfl
  | lam body ih =>
    have hbody := ih (Nat.succ_le_succ h)
    rw [Nat.succ_add k m] at hbody
    simp only [lift, hbody]
  | app fn arg hf ha => simp only [lift, hf h, ha h]

theorem lift_subst (t a : Nameless) (n k d : Nat) :
    (t.subst a k).lift n (k + d) = (t.lift n (k + d + 1)).subst (a.lift n d) k := by
  induction t generalizing k with
  | index i =>
    rcases Nat.lt_trichotomy i k with hi | rfl | hi
    · simp (disch := omega) only [subst_index_of_lt, lift_index_of_lt]
    · have ha := a.lift_lift_comm (m := i) (n := n) (Nat.zero_le d)
      rw [Nat.add_comm] at ha
      simp (disch := omega) only [subst_index_self, lift_index_of_lt, ha]
    · rcases Nat.lt_or_ge i (k + d + 1) with hd | hd
      · simp (disch := omega) only [subst_index_of_gt, lift_index_of_lt]
      · simp (disch := omega) only [subst_index_of_gt, lift_index_of_le, Nat.sub_add_comm]
  | free name id => rfl
  | lam body ih =>
    have hbody := ih (k + 1)
    rw [Nat.add_right_comm] at hbody
    simp only [subst, lift, hbody]
  | app fn arg hf ha => simp only [subst, lift, hf, ha]

/-- Nothing is put in where there is only room. -/
theorem subst_lift_cancel (t a : Nameless) (hd : d ≤ k) (hk : k ≤ d + n) :
    (t.lift (n + 1) d).subst a k = t.lift n d := by
  induction t generalizing d k with
  | index i =>
    rcases Nat.lt_or_ge i d with hi | hi
    · simp (disch := omega) only [lift_index_of_lt, subst_index_of_lt]
    · simp (disch := omega) only [lift_index_of_le, subst_index_of_gt]
      rfl
  | free name id => rfl
  | lam body ih => simp only [lift, subst, ih (Nat.succ_le_succ hd) (by omega : k + 1 ≤ d + 1 + n)]
  | app fn arg hf ha => simp only [lift, subst, hf hd hk, ha hd hk]

/-- A substitution passes room that is further in. -/
theorem subst_lift (t a : Nameless) (m : Nat) (h : d ≤ k) :
    (t.lift m d).subst a (k + m) = (t.subst a k).lift m d := by
  induction t generalizing d k with
  | index i =>
    rcases Nat.lt_trichotomy i k with hi | rfl | hi
    · rcases Nat.lt_or_ge i d with hd | hd
      · simp (disch := omega) only [lift_index_of_lt, subst_index_of_lt]
      · simp (disch := omega) only [lift_index_of_le, subst_index_of_lt]
    · have ha := a.lift_lift_of_le (n := m) (Nat.zero_le d) (by omega : d ≤ 0 + i)
      simp (disch := omega) only [lift_index_of_le, subst_index_self, ha]
    · simp (disch := omega) only [lift_index_of_le, subst_index_of_gt, Nat.sub_add_comm]
  | free name id => rfl
  | lam body ih =>
    have hbody := ih (Nat.succ_le_succ h)
    rw [Nat.succ_add k m] at hbody
    simp only [lift, subst, hbody]
  | app fn arg hf ha => simp only [lift, subst, hf h, ha h]

/-- The outer of two substitutions can be done first, in the term and in what the inner one puts
in. -/
theorem subst_subst (t a b : Nameless) (j d : Nat) :
    (t.subst a j).subst b (j + d) = (t.subst b (j + d + 1)).subst (a.subst b d) j := by
  induction t generalizing j with
  | index i =>
    rcases Nat.lt_trichotomy i j with hi | rfl | hi
    · simp (disch := omega) only [subst_index_of_lt]
    · have ha := a.subst_lift b i (Nat.zero_le d)
      rw [Nat.add_comm] at ha
      simp (disch := omega) only [subst_index_of_lt, subst_index_self, ha]
    · rcases Nat.lt_trichotomy i (j + d + 1) with hd | rfl | hd
      · simp (disch := omega) only [subst_index_of_lt, subst_index_of_gt]
      · have hb := b.subst_lift_cancel (a.subst b d) (Nat.zero_le j) (by omega : j ≤ 0 + (j + d))
        simp (disch := omega) only [subst_index_of_gt, subst_index_self, Nat.add_sub_cancel, hb]
      · simp (disch := omega) only [subst_index_of_gt]
  | free name id => rfl
  | lam body ih =>
    have hbody := ih (j + 1)
    rw [Nat.add_right_comm] at hbody
    simp only [subst, hbody]
  | app fn arg hf ha => simp only [subst, hf, ha]

end LambdaCalc.Nameless
