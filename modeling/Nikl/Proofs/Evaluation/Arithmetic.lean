import Mathlib.Tactic.LinearCombination
import Nikl.Evaluation.Operator

/-
Arithmetic on integers, told by exact arithmetic. `Exact` says what an operator makes of two integers
without a bound on their size, and divides as one divides on paper: a quotient and what is left over. An
operator gives the exact result where that fits in 64 bits and refuses it as an overflow where it does
not; a divisor of zero is refused before that.

One result is refused although it fits. The smallest integer has no quotient by minus one that fits, and
its remainder, which is zero, counts as an overflow together with the quotient
(`smallest_remainder_overflows`).
-/

set_option autoImplicit false

namespace Nikl

/-! ## Exact arithmetic -/

/-- A quotient that is cut toward zero, and what is left over. That is smaller than the divisor, and has
the sign of the dividend unless it is zero. -/
structure Divides (a b q r : Int) : Prop where
  whole : q * b + r = a
  small : r.natAbs < b.natAbs
  nonneg : 0 ≤ a → 0 ≤ r
  nonpos : a ≤ 0 → r ≤ 0

namespace BinaryOp

/-- What an arithmetic operator makes of two integers of any size. Nothing is divided by zero. -/
inductive Exact : BinaryOp → Int → Int → Int → Prop where
  | add (a b : Int) : Exact add a b (a + b)
  | sub (a b : Int) : Exact sub a b (a - b)
  | mul (a b : Int) : Exact mul a b (a * b)
  | div {a b q r : Int} (h : Divides a b q r) : Exact div a b q
  | mod {a b q r : Int} (h : Divides a b q r) : Exact mod a b r

/-- What an arithmetic operator computes. -/
def operation? : BinaryOp → Option Arithmetic
  | add => some .addition
  | sub => some .subtraction
  | mul => some .multiplication
  | div => some .division
  | mod => some .remainder
  | _ => none

/-- The remainder that is refused although it fits. -/
def RefusesRemainder (op : BinaryOp) (a b : Int64) : Prop := op = mod ∧ a = Int64.minValue ∧ b = -1

instance (op : BinaryOp) (a b : Int64) : Decidable (op.RefusesRemainder a b) :=
  inferInstanceAs (Decidable (_ ∧ _))

end BinaryOp

/-- Integers that 64 bits hold. -/
def Fits (n : Int) : Prop := -2 ^ 63 ≤ n ∧ n < 2 ^ 63

instance : DecidablePred Fits := fun _ => inferInstanceAs (Decidable (_ ∧ _))

/-! ## Quotients and remainders -/

namespace Divides

variable {a b q q' r r' : Int}

theorem ne_zero (h : Divides a b q r) : b ≠ 0 := by
  rintro rfl
  exact absurd h.small (Nat.not_lt_zero _)

/-- There is one quotient, and one remainder. -/
theorem unique (h : Divides a b q r) (h' : Divides a b q' r') : q = q' ∧ r = r' := by
  have hparts : r' - r = b * (q - q') := by linear_combination h'.whole - h.whole
  have hsmall : (r' - r).natAbs < b.natAbs := by
    obtain ⟨-, hr, hnonneg, hnonpos⟩ := h
    obtain ⟨-, hr', hnonneg', hnonpos'⟩ := h'
    -- both have the sign of the dividend, so they are not further apart than from zero
    omega
  have hzero := Int.eq_zero_of_dvd_of_natAbs_lt_natAbs ⟨_, hparts⟩ hsmall
  rw [hzero] at hparts
  have hq := (Int.mul_eq_zero.1 hparts.symm).resolve_left h.ne_zero
  omega

/-- Division that rounds toward zero gives them. -/
theorem tdiv (a : Int) (hb : b ≠ 0) : Divides a b (a.tdiv b) (a.tmod b) where
  whole := Int.tdiv_mul_add_tmod a b
  small := by
    rw [Int.natAbs_tmod]
    exact Nat.mod_lt _ (Int.natAbs_pos.2 hb)
  nonneg := Int.tmod_nonneg b
  nonpos ha := by
    have hneg := Int.tmod_nonneg b (Int.neg_nonneg_of_nonpos ha)
    rw [Int.neg_tmod] at hneg
    omega

theorem eq_tdiv (h : Divides a b q r) : q = a.tdiv b ∧ r = a.tmod b := h.unique (.tdiv a h.ne_zero)

/-- A quotient is as far from zero as the quotient of how far the two integers are. -/
theorem natAbs_quotient (h : Divides a b q r) : q.natAbs = a.natAbs / b.natAbs := by
  rw [h.eq_tdiv.1, Int.natAbs_tdiv]
  rfl

end Divides

/-! ## Results that fit -/

section Fitting

variable {n : Int} {m : Int64}

theorem fits_toInt (m : Int64) : Fits m.toInt := ⟨m.le_toInt, m.toInt_lt⟩

theorem fit?_eq_some_iff : Arithmetic.fit? n = some m ↔ m.toInt = n := by
  have hbounds : Int64.minValue.toInt ≤ n ∧ n ≤ Int64.maxValue.toInt ↔ Fits n := by
    rw [Int64.toInt_minValue, Int64.toInt_maxValue, Fits]
    omega
  rw [Arithmetic.fit?, if_congr hbounds rfl rfl]
  constructor
  · intro h
    split at h
    · next hfits =>
      cases h
      exact Int64.toInt_ofInt_of_le hfits.1 hfits.2
    · cases h
  · rintro rfl
    rw [if_pos (fits_toInt m), Int64.ofInt_toInt]

theorem exists_fit?_iff : (∃ m, Arithmetic.fit? n = some m) ↔ Fits n := by
  constructor
  · rintro ⟨m, hm⟩
    exact fit?_eq_some_iff.1 hm ▸ fits_toInt m
  · intro hfits
    exact ⟨Int64.ofInt n, fit?_eq_some_iff.2 (Int64.toInt_ofInt_of_le hfits.1 hfits.2)⟩

theorem fit?_eq_none_iff : Arithmetic.fit? n = none ↔ ¬ Fits n := by
  rw [← exists_fit?_iff, ← Option.isSome_iff_exists, Bool.not_eq_true, Option.isSome_eq_false_iff,
    Option.isNone_iff_eq_none]

end Fitting

section Quotients

variable {a b : Int64} {q r : Int}

theorem eq_minValue_iff : a = Int64.minValue ↔ a.toInt = -2 ^ 63 := by
  rw [← Int64.toInt_minValue, Int64.toInt_inj]

theorem eq_minus_one_iff : b = -1 ↔ b.toInt = -1 := Int64.toInt_inj.symm

/-- A remainder is smaller than a divisor that fits. -/
theorem fits_remainder (h : Divides a.toInt b.toInt q r) : Fits r := by
  have hb := fits_toInt b
  have hsmall := h.small
  unfold Fits at *
  omega

/-- Only one quotient does not fit. -/
theorem fits_quotient_iff (h : Divides a.toInt b.toInt q r) :
    Fits q ↔ ¬ (a = Int64.minValue ∧ b = -1) := by
  rw [eq_minValue_iff, eq_minus_one_iff]
  have ha := fits_toInt a
  have hwhole := h.whole
  have hsmall := h.small
  have hquotient := h.natAbs_quotient
  have hne := h.ne_zero
  unfold Fits at *
  rcases Nat.lt_or_ge b.toInt.natAbs 2 with hone | htwo
  · -- by one and minus one nothing is left over
    obtain hb | hb : b.toInt = 1 ∨ b.toInt = -1 := by omega
    all_goals
      rw [hb] at hwhole hsmall
      omega
  · have hhalf : a.toInt.natAbs / b.toInt.natAbs ≤ a.toInt.natAbs / 2 :=
      Nat.div_le_div_left htwo Nat.two_pos
    omega

/-- The quotient times the divisor is a part of the dividend. -/
theorem fits_product (h : Divides a.toInt b.toInt q r) : Fits (q * b.toInt) := by
  have ha := fits_toInt a
  have hb := fits_toInt b
  obtain ⟨hwhole, hsmall, hnonneg, hnonpos⟩ := h
  generalize q * b.toInt = p at hwhole ⊢
  unfold Fits at *
  omega

end Quotients

/-! ## What operators do -/

namespace BinaryOp

variable {op : BinaryOp} {operation : Arithmetic} {a b : Int64} {n m : Int}

/-- There is one exact result. -/
theorem Exact.unique {x y : Int} (h : op.Exact x y n) (h' : op.Exact x y m) : n = m := by
  cases h with
  | add | sub | mul =>
    cases h'
    rfl
  | div h =>
    cases h' with
    | div h' => exact (h.unique h').1
  | mod h =>
    cases h' with
    | mod h' => exact (h.unique h').2

theorem Exact.iff {x y : Int} (h : op.Exact x y n) : op.Exact x y m ↔ m = n := by
  constructor
  · exact fun hm => hm.unique h
  · rintro rfl
    exact h

/-- There is an exact result, unless the divisor is zero. -/
theorem exists_exact (hop : op.operation? = some operation) (x y : Int) :
    (∃ n, op.Exact x y n) ∨ (op = div ∨ op = mod) ∧ y = 0 := by
  by_cases hy : y = 0
  · cases op with
    | add => exact .inl ⟨_, .add x y⟩
    | sub => exact .inl ⟨_, .sub x y⟩
    | mul => exact .inl ⟨_, .mul x y⟩
    | div => exact .inr ⟨.inl rfl, hy⟩
    | mod => exact .inr ⟨.inr rfl, hy⟩
    | _ => cases hop
  · cases op with
    | add => exact .inl ⟨_, .add x y⟩
    | sub => exact .inl ⟨_, .sub x y⟩
    | mul => exact .inl ⟨_, .mul x y⟩
    | div => exact .inl ⟨_, .div (.tdiv x hy)⟩
    | mod => exact .inl ⟨_, .mod (.tdiv x hy)⟩
    | _ => cases hop

/-- What is given for an exact result. -/
def given? (op : BinaryOp) (a b : Int64) (n : Int) : Option Int64 :=
  if op.RefusesRemainder a b then none else Arithmetic.fit? n

section Given

variable (h : op.Exact a.toInt b.toInt n)

include h

theorem given?_eq_some_iff {r : Int64} :
    op.given? a b n = some r ↔ op.Exact a.toInt b.toInt r.toInt ∧ ¬ op.RefusesRemainder a b := by
  rw [h.iff, ← fit?_eq_some_iff, given?]
  split <;> simp [*]

theorem exists_given?_iff : (∃ r, op.given? a b n = some r) ↔
    (∃ m, op.Exact a.toInt b.toInt m ∧ Fits m) ∧ ¬ op.RefusesRemainder a b := by
  simp only [h.iff, exists_eq_left, ← exists_fit?_iff, given?]
  split <;> simp [*]

theorem given?_eq_none_iff : op.given? a b n = none ↔
    (∃ m, op.Exact a.toInt b.toInt m ∧ ¬ Fits m) ∨ op.RefusesRemainder a b := by
  simp only [h.iff, exists_eq_left, ← fit?_eq_none_iff, given?]
  split <;> simp [*]

end Given

/-- An exact result is checked for its size. -/
theorem onInts_exact (hop : op.operation? = some operation) (h : op.Exact a.toInt b.toInt n) :
    op.onInts a b = (checked operation (op.given? a b n) : Except EvalFault Value) := by
  have hother : op ≠ mod → ¬ op.RefusesRemainder a b := fun hne hmod => hne hmod.1
  unfold given?
  generalize ha : a.toInt = x at h
  generalize hb : b.toInt = y at h
  cases h with
  | add | sub | mul =>
    cases hop
    rw [if_neg (hother nofun), ← ha, ← hb]
    rfl
  | div h =>
    cases hop
    have hne : b ≠ 0 := by
      rintro rfl
      exact h.ne_zero hb.symm
    rw [if_neg (hother nofun), h.eq_tdiv.1, ← ha, ← hb, onInts, if_neg hne]
    rfl
  | @mod _ _ q _ h =>
    cases hop
    have hne : b ≠ 0 := by
      rintro rfl
      exact h.ne_zero hb.symm
    subst ha hb
    have hrefuses : mod.RefusesRemainder a b ↔ Arithmetic.fit? q = none := by
      rw [fit?_eq_none_iff, fits_quotient_iff h, Classical.not_not]
      exact and_iff_right rfl
    rw [onInts, if_neg hne, Arithmetic.remainder?, Arithmetic.quotient?, ← h.eq_tdiv.1, ← h.eq_tdiv.2,
      if_congr hrefuses rfl rfl]
    cases Arithmetic.fit? q <;> rfl

/-- A division by zero is refused as what it is. -/
theorem onInts_zero (a : Int64) :
    div.onInts a 0 = (.error .divisionByZero : Except EvalFault Value) ∧
      mod.onInts a 0 = (.error .moduloByZero : Except EvalFault Value) := ⟨rfl, rfl⟩

/-- An arithmetic operator on two integers leaves the collections alone. -/
theorem apply_ints (hop : op.operation? = some operation) (a b : Int64) (s : Store) :
    op.apply (.int a) (.int b) s =
      match op.onInts a b with
      | .ok v => .ok v s
      | .error fault => .error (.ofFault fault) s := by
  have hequal : op ≠ equal := by
    rintro rfl
    cases hop
  have hnotEqual : op ≠ notEqual := by
    rintro rfl
    cases hop
  have hscalars : op.onScalars (.int a : Value) (.int b) = op.onInts a b := rfl
  simp only [← hscalars, apply, if_neg hequal, if_neg hnotEqual]
  cases op.onScalars (.int a) (.int b) <;> rfl

/-- What an arithmetic operator does with two integers. -/
structure IntOutcome (op : BinaryOp) (operation : Arithmetic) (a b : Int64) (s : Store) : Prop where
  /-- A result is the exact one. -/
  result : ∀ r : Int64, op.apply (.int a) (.int b) s = .ok (.int r) s ↔
    op.Exact a.toInt b.toInt r.toInt ∧ ¬ op.RefusesRemainder a b
  /-- There is a result where the exact one fits. -/
  answers : (∃ r : Int64, op.apply (.int a) (.int b) s = .ok (.int r) s) ↔
    (∃ n, op.Exact a.toInt b.toInt n ∧ Fits n) ∧ ¬ op.RefusesRemainder a b
  /-- There is an overflow where it does not. -/
  overflow : ∀ o, op.apply (.int a) (.int b) s = .error (.ofFault (.overflow o)) s ↔
    o = operation ∧ ((∃ n, op.Exact a.toInt b.toInt n ∧ ¬ Fits n) ∨ op.RefusesRemainder a b)
  divisionByZero : op.apply (.int a) (.int b) s = .error (.ofFault .divisionByZero) s ↔
    op = div ∧ b = 0
  moduloByZero : op.apply (.int a) (.int b) s = .error (.ofFault .moduloByZero) s ↔ op = mod ∧ b = 0
  /-- Nothing else happens. -/
  settled : (∃ r : Int64, op.apply (.int a) (.int b) s = .ok (.int r) s) ∨
    ∃ fault ∈ [.overflow operation, .divisionByZero, .moduloByZero],
      op.apply (.int a) (.int b) s = .error (.ofFault fault) s

/-- A divisor of zero, and nothing else, is refused as such. -/
theorem intOutcome_zero (hop : op = div ∨ op = mod) (h : op.operation? = some operation) (a : Int64)
    (s : Store) : IntOutcome op operation a 0 s := by
  have hnone : ∀ n, ¬ op.Exact a.toInt 0 n := by
    intro n hn
    cases hn with
    | div hn => exact hn.ne_zero rfl
    | mod hn => exact hn.ne_zero rfl
    | _ => simp at hop
  have hrefuses : ¬ op.RefusesRemainder a 0 := fun hrefuses => absurd hrefuses.2.2 (by decide)
  have happly := apply_ints h a 0 s
  obtain rfl | rfl := hop
  · rw [(onInts_zero a).1] at happly
    constructor <;> simp [happly, hrefuses, Stop.ofFault, hnone _, show (0 : Int64).toInt = 0 from rfl]
  · rw [(onInts_zero a).2] at happly
    constructor <;> simp [happly, hrefuses, Stop.ofFault, hnone _, show (0 : Int64).toInt = 0 from rfl]

/-- Exact results that fit are given, and others refused. -/
theorem intOutcome_exact (hop : op.operation? = some operation) (h : op.Exact a.toInt b.toInt n)
    (s : Store) : IntOutcome op operation a b s := by
  have happly := apply_ints hop a b s
  rw [onInts_exact hop h] at happly
  have hdivisor : ¬ (op = div ∧ b = 0) ∧ ¬ (op = mod ∧ b = 0) := by
    constructor
    all_goals
      rintro ⟨rfl, rfl⟩
      cases h with | _ h => exact h.ne_zero rfl
  have hsome := fun m => given?_eq_some_iff h (r := m)
  have hfits := exists_given?_iff h
  have hnone := given?_eq_none_iff h
  generalize op.given? a b n = r at happly hsome hfits hnone
  constructor
  · intro m
    rw [← hsome, happly]
    cases r <;> simp [checked]
  · rw [← hfits, happly]
    cases r <;> simp [checked]
  · intro o
    rw [← hnone, happly]
    cases r <;> simp [checked, Stop.ofFault, eq_comm]
  · rw [happly]
    cases r <;> simp [checked, Stop.ofFault, hdivisor]
  · rw [happly]
    cases r <;> simp [checked, Stop.ofFault, hdivisor]
  · rw [happly]
    cases r <;> simp [checked]

theorem intOutcome (hop : op.operation? = some operation) (a b : Int64) (s : Store) :
    IntOutcome op operation a b s := by
  rcases exists_exact hop a.toInt b.toInt with ⟨n, hn⟩ | ⟨hdivides, hb⟩
  · exact intOutcome_exact hop hn s
  · obtain rfl : b = 0 := Int64.toInt_inj.1 hb
    exact intOutcome_zero hdivides hop a s

end BinaryOp

/-- What a minus sign does with an integer. -/
structure NegationOutcome (a : Int64) (s : Store) : Prop where
  result : ∀ r : Int64, UnaryOp.neg.apply (.int a) s = .ok (.int r) s ↔ r.toInt = -a.toInt
  answers : (∃ r : Int64, UnaryOp.neg.apply (.int a) s = .ok (.int r) s) ↔ Fits (-a.toInt)
  overflow : UnaryOp.neg.apply (.int a) s = .error (.ofFault (.overflow .negation)) s ↔
    ¬ Fits (-a.toInt)

theorem negationOutcome (a : Int64) (s : Store) : NegationOutcome a s := by
  have happly : UnaryOp.neg.apply (.int a) s =
      (Arithmetic.fit? (-a.toInt)).elim (.error (.ofFault (.overflow .negation)) s)
        (fun m => .ok (.int m) s) := by
    rw [UnaryOp.apply]
    cases Arithmetic.fit? (-a.toInt) <;> rfl
  have hsome := fun r => fit?_eq_some_iff (n := -a.toInt) (m := r)
  have hfits := exists_fit?_iff (n := -a.toInt)
  have hnone := fit?_eq_none_iff (n := -a.toInt)
  generalize Arithmetic.fit? (-a.toInt) = r at happly hsome hfits hnone
  constructor
  · intro m
    rw [← hsome, happly]
    cases r <;> simp
  · rw [← hfits, happly]
    cases r <;> simp
  · rw [← hnone, happly]
    cases r <;> simp

/-! ## The main statement -/

/-- The quotient of two values times the divisor, and the remainder added to that. -/
def recombined (a b : Value) : StoreM Value := do
  let q ← BinaryOp.div.apply a b
  let p ← BinaryOp.mul.apply q b
  let r ← BinaryOp.mod.apply a b
  BinaryOp.add.apply p r

/-- Where there is a quotient there is a remainder, and the two make up the dividend. -/
theorem recombined_of_quotient {a b q : Int64} {s : Store}
    (h : BinaryOp.div.apply (.int a) (.int b) s = .ok (.int q) s) :
    ∃ r : Int64, BinaryOp.mod.apply (.int a) (.int b) s = .ok (.int r) s ∧
      r.toInt.natAbs < b.toInt.natAbs ∧ recombined (.int a) (.int b) s = .ok (.int a) s := by
  have hop : BinaryOp.div.operation? = some .division := rfl
  have hquotient := ((BinaryOp.intOutcome hop a b s).result q).1 h
  cases hquotient.1 with
  | @div _ _ _ r hdivides =>
  have hone : ¬ (a = Int64.minValue ∧ b = -1) := (fits_quotient_iff hdivides).1 (fits_toInt q)
  obtain ⟨r, rfl⟩ : ∃ r' : Int64, r'.toInt = r :=
    (exists_fit?_iff.2 (fits_remainder hdivides)).imp fun _ => fit?_eq_some_iff.1
  obtain ⟨p, hp⟩ : ∃ p : Int64, p.toInt = q.toInt * b.toInt :=
    (exists_fit?_iff.2 (fits_product hdivides)).imp fun _ => fit?_eq_some_iff.1
  have hmod : BinaryOp.mod.apply (.int a) (.int b) s = .ok (.int r) s :=
    ((BinaryOp.intOutcome rfl a b s).result r).2 ⟨.mod hdivides, fun hrefuses => hone hrefuses.2⟩
  have hmul : BinaryOp.mul.apply (.int q) (.int b) s = .ok (.int p) s := by
    refine ((BinaryOp.intOutcome rfl q b s).result p).2 ⟨?_, nofun⟩
    rw [hp]
    exact .mul _ _
  have hadd : BinaryOp.add.apply (.int p) (.int r) s = .ok (.int a) s := by
    refine ((BinaryOp.intOutcome rfl p r s).result a).2 ⟨?_, nofun⟩
    rw [← hdivides.whole, ← hp]
    exact .add _ _
  refine ⟨r, hmod, hdivides.small, ?_⟩
  simp only [recombined, bind, EStateM.bind, h, hmul, hmod, hadd]

/-- **Integer arithmetic is exact or refused.** An arithmetic operator on two integers gives the exact
result where that fits in 64 bits, and fails with an overflow where it does not; a divisor of zero fails
as such. The one exception is the remainder of the smallest integer by minus one, an overflow although it
fits. A minus sign does likewise. So where there is a quotient there is a remainder, smaller than the
divisor, and the quotient times the divisor and the remainder make up the dividend without an error. -/
theorem integers_exact_or_refused (s : Store) :
    (∀ (op : BinaryOp) (operation : Arithmetic) (a b : Int64), op.operation? = some operation →
      op.IntOutcome operation a b s) ∧
    (∀ a : Int64, NegationOutcome a s) ∧
    ∀ a b q : Int64, BinaryOp.div.apply (.int a) (.int b) s = .ok (.int q) s →
      ∃ r : Int64, BinaryOp.mod.apply (.int a) (.int b) s = .ok (.int r) s ∧
        r.toInt.natAbs < b.toInt.natAbs ∧ recombined (.int a) (.int b) s = .ok (.int a) s :=
  ⟨fun _ _ a b hop => BinaryOp.intOutcome hop a b s, fun a => negationOutcome a s,
    fun _ _ _ h => recombined_of_quotient h⟩

/-- A product of the smallest integer that does not fit, and the parts of a dividend below zero. -/
theorem integers_exact_or_refused_belowZero :
    BinaryOp.mul.operation? = some .multiplication ∧
      BinaryOp.mul.apply (.int Int64.minValue) (.int (-1)) ({} : Store) =
        .error (.ofFault (.overflow .multiplication)) {} ∧
      BinaryOp.div.apply (.int (-7)) (.int 2) ({} : Store) = .ok (.int (-3)) {} ∧
      ∃ r : Int64, BinaryOp.mod.apply (.int (-7)) (.int 2) ({} : Store) = .ok (.int r) {} ∧
        r.toInt.natAbs < 2 ∧ recombined (.int (-7)) (.int 2) {} = .ok (.int (-7)) {} := by
  have hop : BinaryOp.mul.operation? = some .multiplication := rfl
  have hdiv : BinaryOp.div.apply (.int (-7)) (.int 2) ({} : Store) = .ok (.int (-3)) {} := rfl
  obtain ⟨hall, -, hparts⟩ := integers_exact_or_refused {}
  refine ⟨hop, ?_, hdiv, hparts _ _ _ hdiv⟩
  refine ((hall .mul _ Int64.minValue (-1) hop).overflow _).2 ⟨rfl, .inl ⟨_, .mul _ _, by decide⟩⟩

/-- The remainder of the smallest integer by minus one is zero, which fits; there is no result all the
same. -/
theorem smallest_remainder_overflows :
    BinaryOp.mod.Exact Int64.minValue.toInt (-1) 0 ∧ Fits 0 ∧
      BinaryOp.mod.apply (.int Int64.minValue) (.int (-1)) ({} : Store) =
        .error (.ofFault (.overflow .remainder)) {} ∧
      ¬ ((∃ r : Int64, BinaryOp.mod.apply (.int Int64.minValue) (.int (-1)) ({} : Store) = .ok (.int r) {}) ↔
        ∃ n, BinaryOp.mod.Exact Int64.minValue.toInt (-1) n ∧ Fits n) := by
  have hexact : BinaryOp.mod.Exact Int64.minValue.toInt (-1) 0 :=
    .mod (q := 2 ^ 63) ⟨by decide, by decide, by decide, by decide⟩
  have hfits : Fits 0 := by decide
  have hrefused : BinaryOp.mod.apply (.int Int64.minValue) (.int (-1)) ({} : Store) =
      .error (.ofFault (.overflow .remainder)) {} := rfl
  refine ⟨hexact, hfits, hrefused, fun hiff => ?_⟩
  obtain ⟨r, hr⟩ := hiff.2 ⟨0, hexact, hfits⟩
  rw [hrefused] at hr
  cases hr

end Nikl
