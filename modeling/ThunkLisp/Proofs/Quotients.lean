import Mathlib
import ThunkLisp.Primitives

/-!
Quotients of whole numbers. A chain of divisions stays whole exactly as long as the divisors so far
divide the first number, and it never comes back from a double, so it ends whole if and only if the
product of the divisors divides the first number. A whole number other than zero is never rounded to
the double zero, so only a divisor that is zero is refused as such.
-/

namespace ThunkLisp

/-! The double of a whole number. -/

namespace Decimal

theorem div_le_roundHalfEven (num den : Nat) : num / den ≤ roundHalfEven num den := by
  simp only [roundHalfEven]
  split <;> omega

theorem two_pow_gridExponent_le (num : Nat) (positive : 0 < num) :
    2 ^ (gridExponent num 1).toNat ≤ num := by
  have small : (gridExponent num 1).toNat ≤ num.log2 := by
    have one : (1 : Nat).log2 = 0 := by decide
    simp only [gridExponent, one, mantissaBits, lowestExponent]
    split <;> omega
  calc 2 ^ (gridExponent num 1).toNat ≤ 2 ^ num.log2 := Nat.pow_le_pow_right (by omega) small
    _ ≤ num := Nat.log2_self_le (by omega)

theorem mantissa_pos (num : Nat) (positive : 0 < num) :
    0 < roundHalfEven (num * 2 ^ (-gridExponent num 1).toNat) (1 * 2 ^
      (gridExponent num 1).toNat) := by
  refine Nat.lt_of_lt_of_le (Nat.div_pos ?_ ?_) (div_le_roundHalfEven _ _)
  · calc 1 * 2 ^ (gridExponent num 1).toNat ≤
      num := by simpa using two_pow_gridExponent_le num positive
      _ ≤ num * 2 ^ (-gridExponent num 1).toNat := Nat.le_mul_of_pos_right num (Nat.two_pow_pos _)
  · exact Nat.mul_pos (by omega) (Nat.two_pow_pos _)

theorem nearestBits?_bounds {num bits : Nat} (positive : 0 < num)
    (found : nearestBits? num 1 = some bits) :
    0 < bits ∧ bits < 2 ^ 63 := by
  have mantissa := mantissa_pos num positive
  simp only [nearestBits?, Option.ite_none_right_eq_some, Option.some.injEq] at found
  obtain ⟨finite, rfl⟩ := found
  generalize roundHalfEven _ _ = rounded at mantissa finite ⊢
  simp only [hiddenBit, mantissaBits] at finite ⊢
  by_cases low : rounded < 2 ^ 52
  · simp only [low, ↓reduceIte] at finite ⊢
    omega
  · simp only [low, ↓reduceIte] at finite ⊢
    omega

theorem toBits_ofBits (bits : UInt64) : (Float.ofBits bits).toBits = bits ∨
    Float.ofBits bits = Float.nan := by
  have packed : (Float.ofBits bits).toBits.toBitVec = _ :=
    @Float.Model.UnpackedFloat.pack_unpack .binary64 bits.toBitVec (by decide)
  split at packed
  · right
    rw [← Float.toBits_inj, ← UInt64.toBitVec_inj, packed]
    decide +kernel
  · left
    exact UInt64.toBitVec_inj.mp packed

theorem ofBits_beq_zero {bits : UInt64} (positive : bits ≠ (0 : Float).toBits)
    (negative : bits ≠ (-0 : Float).toBits) :
    (Float.ofBits bits == 0) = false := by
  rw [← Bool.not_eq_true, Float.beq_iff_ne_nan_and_eq]
  rintro ⟨no_nan, -, zero⟩
  have kept : (Float.ofBits bits).toBits = bits := (toBits_ofBits bits).resolve_right no_nan
  have no_zero : Float.ofBits bits ≠ 0 := fun zero => positive (by rw [← kept, zero])
  have no_negative_zero : Float.ofBits bits ≠ -0 := fun zero => negative (by rw [← kept, zero])
  rcases zero with zero | ⟨zero, -⟩ | ⟨zero, -⟩
  · exact no_zero zero
  · exact no_zero zero
  · exact no_negative_zero zero

theorem signedBits_beq_zero (negative : Bool) {bits : Nat} (positive : 0 < bits)
    (low : bits < 2 ^ 63) :
    (Float.ofBits (if negative then 2 ^ 63 + bits else bits).toUInt64 == 0) = false := by
  have zero : (0 : Float).toBits.toNat = 0 := by decide +kernel
  have negative_zero : (-0 : Float).toBits.toNat = 2 ^ 63 := by decide +kernel
  obtain ⟨signed, same⟩ : ∃ signed, signed = if negative then 2 ^ 63 + bits else bits := ⟨_, rfl⟩
  have apart : signed < 2 ^ 64 ∧ signed ≠ 0 ∧ signed ≠ 2 ^ 63 := by
    rw [same]
    split <;> omega
  have value : signed.toUInt64.toNat = signed := UInt64.toNat_ofNat_of_lt' apart.1
  rw [← same]
  apply ofBits_beq_zero
  · intro isZero
    exact apart.2.1 (by rw [← value, isZero, zero])
  · intro isZero
    exact apart.2.2 (by rw [← value, isZero, negative_zero])

theorem ofInt?_ne_zero {n : Int} (nonzero : n ≠ 0) {x : Float} (found : ofInt? n = some x) :
    (x == 0) = false := by
  obtain ⟨bits, bits_found, rfl⟩ := Option.map_eq_some_iff.mp found
  obtain ⟨positive, low⟩ := nearestBits?_bounds (Int.natAbs_pos.mpr nonzero) bits_found
  exact signedBits_beq_zero (decide (n < 0)) positive low

theorem ofInt?_zero : ∃ x, ofInt? 0 = some x ∧ (x == 0) = true :=
  ⟨Float.ofBits 0, by decide +kernel, by decide +kernel⟩

end Decimal

/-! One division. -/

inductive IsDouble : Value → Prop where
  | number (x : Float) : IsDouble (.float x)
  | nan (identity : Nat) : IsDouble (.nan identity)

inductive IsNumber : Value → Prop where
  | whole (m : Int) : IsNumber (.int m)
  | double {v : Value} (isDouble : IsDouble v) : IsNumber v

inductive IsOverflow : ArithmeticFault → Prop where
  | operand : IsOverflow .wholeTooLarge
  | quotient : IsOverflow .quotientTooLarge

inductive IsZeroDivision : ArithmeticFault → Prop where
  | whole : IsZeroDivision .divisionByZero
  | double : IsZeroDivision .floatDivisionByZero

/-- The outcome is no whole number: it is a double, or a number was too large for one. -/
inductive Inexact : Except Failure Value → Prop where
  | double {v : Value} (isDouble : IsDouble v) : Inexact (.ok v)
  | overflow {fault : ArithmeticFault} (isOverflow : IsOverflow fault) :
      Inexact (.error (.arithmetic fault))

/-- The outcome is the failure of a division by zero, or of a number that was too large for a double
before it. -/
inductive Refused : Except Failure Value → Prop where
  | zero {fault : ArithmeticFault} (isZero : IsZeroDivision fault) :
      Refused (.error (.arithmetic fault))
  | overflow {fault : ArithmeticFault} (isOverflow : IsOverflow fault) :
      Refused (.error (.arithmetic fault))

theorem Inexact.cases {outcome : Except Failure Value} (inexact : Inexact outcome) :
    (∃ v, outcome = .ok v ∧ IsDouble v) ∨ ∃ fault, outcome = .error (.arithmetic fault) ∧
      IsOverflow fault := by
  cases inexact with
  | double isDouble => exact .inl ⟨_, rfl, isDouble⟩
  | overflow isOverflow => exact .inr ⟨_, rfl, isOverflow⟩

theorem isDouble_toValue (x : Float) : IsDouble (Number.float x).toValue := by
  rw [Number.toValue]
  split
  · exact .nan 0
  · exact .number x

theorem number?_of_isDouble {v : Value} (isDouble : IsDouble v) :
    ∃ x, v.number? = some (.float x) := by
  cases isDouble with
  | number x => exact ⟨x, rfl⟩
  | nan identity => exact ⟨0 / 0, rfl⟩

theorem Number.div_float_int (x : Float) (divisor : Int) :
    Number.div (.float x) (.int divisor) =
      match Decimal.ofInt? divisor with
      | some y => if y == 0 then .error .floatDivisionByZero else .ok (.float (x / y))
      | none => .error .wholeTooLarge := by
  simp only [Number.div, Number.toFloat]
  cases Decimal.ofInt? divisor <;> rfl

namespace Arithmetic

def divideBy (v : Value) (divisor : Int) : Except Failure Value :=
  combine "/=" Number.div v (.int divisor)

theorem divideBy_of_number {v : Value} {m : Number} (number : v.number? = some m) (divisor : Int) :
    divideBy v divisor =
      match m.div (.int divisor) with
      | .ok result => .ok result.toValue
      | .error fault => .error (.arithmetic fault) := by
  rw [divideBy, combine, number]
  rfl

theorem divideBy_mul {divisor : Int} (nonzero : divisor ≠ 0) (k : Int) :
    divideBy (.int (divisor * k)) divisor = .ok (.int k) := by
  rw [divideBy_of_number rfl, Number.div, Number.divInt_of_dvd _ divisor nonzero
    (Int.dvd_mul_right divisor k), Int.mul_ediv_cancel_left k nonzero]
  rfl

theorem divideBy_of_not_dvd {m divisor : Int} (nonzero : divisor ≠ 0)
    (not_divides : ¬ divisor ∣ m) :
    Inexact (divideBy (.int m) divisor) := by
  have rest : m % divisor ≠ 0 := fun whole => not_divides (Int.dvd_of_emod_eq_zero whole)
  rw [divideBy_of_number rfl, Number.div, Number.divInt, if_neg nonzero, if_neg rest]
  cases Decimal.nearest? ((m < 0) != (divisor < 0)) m.natAbs divisor.natAbs with
  | some x => exact .double (isDouble_toValue x)
  | none => exact .overflow .quotient

theorem divideBy_double {v : Value} (isDouble : IsDouble v) {divisor : Int}
    (nonzero : divisor ≠ 0) :
    Inexact (divideBy v divisor) := by
  obtain ⟨x, number⟩ := number?_of_isDouble isDouble
  rw [divideBy_of_number number, Number.div_float_int]
  cases found : Decimal.ofInt? divisor with
  | none => exact .overflow .operand
  | some y =>
      simp only [Decimal.ofInt?_ne_zero nonzero found, Bool.false_eq_true, ↓reduceIte]
      exact .double (isDouble_toValue (x / y))

theorem divideBy_number {v : Value} (isNumber : IsNumber v) {divisor : Int}
    (nonzero : divisor ≠ 0) :
    (∃ next, divideBy v divisor = .ok next ∧ IsNumber next) ∨
      ∃ fault, divideBy v divisor = .error (.arithmetic fault) ∧ IsOverflow fault := by
  have inexact (found : Inexact (divideBy v divisor)) :
      (∃ next, divideBy v divisor = .ok next ∧ IsNumber next) ∨
        ∃ fault, divideBy v divisor = .error (.arithmetic fault) ∧ IsOverflow fault :=
    found.cases.imp_left fun ⟨next, divided, isDouble⟩ => ⟨next, divided, .double isDouble⟩
  cases isNumber with
  | whole m =>
      by_cases divides : divisor ∣ m
      · obtain ⟨k, rfl⟩ := divides
        exact .inl ⟨_, divideBy_mul nonzero k, .whole k⟩
      · exact inexact (divideBy_of_not_dvd nonzero divides)
  | double isDouble => exact inexact (divideBy_double isDouble nonzero)

theorem divideBy_int_zero (m : Int) : divideBy (.int m) 0 = .error (.arithmetic .divisionByZero) :=
  rfl

theorem divideBy_double_zero {v : Value} (isDouble : IsDouble v) :
    divideBy v 0 = .error (.arithmetic .floatDivisionByZero) := by
  obtain ⟨x, number⟩ := number?_of_isDouble isDouble
  obtain ⟨zero, found, isZero⟩ := Decimal.ofInt?_zero
  rw [divideBy_of_number number, Number.div_float_int, found]
  simp only [isZero, ↓reduceIte]

/-! Chains of divisions. -/

theorem quotientOf_of_ne_nil (first : Int) {divisors : List Int} (some : divisors ≠ []) :
    quotientOf (.int first) (divisors.map .int) = divisors.foldlM divideBy (.int first) := by
  obtain ⟨divisor, rest, rfl⟩ := List.exists_cons_of_ne_nil some
  rw [List.map_cons, quotientOf, ← List.map_cons, List.foldlM_map]
  · rfl
  · simp

theorem foldlM_cons_of_error {divisor : Int} {rest : List Int} {v : Value} {failure : Failure}
    (failed : divideBy v divisor = .error failure) : (divisor :: rest).foldlM divideBy v =
      .error failure := by
  rw [List.foldlM_cons, failed]
  rfl

theorem foldlM_cons_of_ok {divisor : Int} {rest : List Int} {v next : Value}
    (divided : divideBy v divisor = .ok next) :
    (divisor :: rest).foldlM divideBy v = rest.foldlM divideBy next := by
  rw [List.foldlM_cons, divided]
  rfl

theorem foldlM_cons_of_inexact {divisor : Int} {rest : List Int} {v : Value}
    (first : Inexact (divideBy v divisor))
    (behind : ∀ {next}, IsDouble next → Inexact (rest.foldlM divideBy next)) :
    Inexact ((divisor :: rest).foldlM divideBy v) := by
  rcases first.cases with ⟨next, divided, isDouble⟩ | ⟨fault, failed, isOverflow⟩
  · rw [foldlM_cons_of_ok divided]
    exact behind isDouble
  · rw [foldlM_cons_of_error failed]
    exact .overflow isOverflow

theorem chain_double {divisors : List Int} (nonzero : 0 ∉ divisors) {v : Value}
    (isDouble : IsDouble v) :
    Inexact (divisors.foldlM divideBy v) := by
  induction divisors generalizing v with
  | nil => exact .double isDouble
  | cons divisor rest ih =>
      obtain ⟨here, behind⟩ := List.ne_and_not_mem_of_not_mem_cons nonzero
      exact foldlM_cons_of_inexact (divideBy_double isDouble here.symm) (ih behind)

theorem chain_whole {divisors : List Int} (nonzero : 0 ∉ divisors) (k : Int) :
    divisors.foldlM divideBy (.int (divisors.prod * k)) = .ok (.int k) := by
  induction divisors with
  | nil => rw [List.prod_nil, Int.one_mul]; rfl
  | cons divisor rest ih =>
      obtain ⟨here, behind⟩ := List.ne_and_not_mem_of_not_mem_cons nonzero
      rw [List.prod_cons, Int.mul_assoc, foldlM_cons_of_ok (divideBy_mul here.symm _), ih behind]

/-- Any other number becomes a double on the way, by the first divisor that leaves a rest. -/
theorem chain_inexact {divisors : List Int} (nonzero : 0 ∉ divisors) {m : Int}
    (not_divides : ¬ divisors.prod ∣ m) :
    Inexact (divisors.foldlM divideBy (.int m)) := by
  induction divisors generalizing m with
  | nil => exact absurd (Int.one_dvd m) not_divides
  | cons divisor rest ih =>
      obtain ⟨here, behind⟩ := List.ne_and_not_mem_of_not_mem_cons nonzero
      rw [List.prod_cons] at not_divides
      by_cases divides : divisor ∣ m
      · obtain ⟨k, rfl⟩ := divides
        rw [foldlM_cons_of_ok (divideBy_mul here.symm k)]
        exact ih behind fun whole => not_divides (Int.mul_dvd_mul_left divisor whole)
      · exact foldlM_cons_of_inexact (divideBy_of_not_dvd here.symm divides) (chain_double behind)

theorem chain_refused {divisors : List Int} (zero : 0 ∈ divisors) {v : Value}
    (isNumber : IsNumber v) :
    Refused (divisors.foldlM divideBy v) := by
  induction divisors generalizing v with
  | nil => cases zero
  | cons divisor rest ih =>
      by_cases here : divisor = 0
      · subst here
        cases isNumber with
        | whole m => exact foldlM_cons_of_error (divideBy_int_zero m) ▸ .zero .whole
        | double isDouble => exact foldlM_cons_of_error (divideBy_double_zero
            isDouble) ▸ .zero .double
      · have behind : 0 ∈ rest := (List.mem_cons.mp zero).resolve_left (Ne.symm here)
        rcases divideBy_number isNumber here with ⟨next, divided, isNumber'⟩ | ⟨fault, failed,
          isOverflow⟩
        · exact foldlM_cons_of_ok divided ▸ ih behind isNumber'
        · exact foldlM_cons_of_error failed ▸ .overflow isOverflow

end Arithmetic

/-! The primitive. -/

def quotient (added : AddedActions) (store : Store) (first : Int) (divisors : List Int) :
    Except Failure Value × Store :=
  ((Operation.arithmetic .quotient).run added (.int first :: divisors.map .int)).on store

theorem quotient_eq (added : AddedActions) (store : Store) (first : Int) (divisors : List Int) :
    quotient added store first divisors =
      match Arithmetic.quotientOf (.int first) (divisors.map .int) with
      | .ok v => (renewed v).on store
      | .error failure => (.error failure, store) := by
  show (do renewed (← Run.ofExcept (Arithmetic.quotientOf _ _)) : Run Value).on store = _
  rw [Run.on_bind, Run.on_ofExcept]
  cases Arithmetic.quotientOf (.int first) (divisors.map .int) <;> rfl

theorem quotient_of_ne_nil (added : AddedActions) (store : Store) (first : Int)
    {divisors : List Int} (some : divisors ≠ []) :
    quotient added store first divisors =
      match divisors.foldlM Arithmetic.divideBy (.int first) with
      | .ok v => (renewed v).on store
      | .error failure => (.error failure, store) := by
  rw [quotient_eq, Arithmetic.quotientOf_of_ne_nil first some]

theorem quotient_nil (added : AddedActions) (store : Store) (x : Int) :
    quotient added store x [] = quotient added store 1 [x] := by
  have one_step : [x].foldlM Arithmetic.divideBy (.int 1) = Arithmetic.divideBy (.int 1) x := by
    rw [List.foldlM_cons]
    exact bind_pure _
  rw [quotient_eq, quotient_of_ne_nil _ _ _ (List.cons_ne_nil x []), one_step]
  rfl

theorem quotient_whole (added : AddedActions) (store : Store) {divisors : List Int}
    (some : divisors ≠ []) (nonzero : 0 ∉ divisors) (k : Int) :
    quotient added store (divisors.prod * k) divisors = (.ok (.int k), store) := by
  rw [quotient_of_ne_nil added store _ some, Arithmetic.chain_whole nonzero k]
  rfl

theorem quotient_inexact (added : AddedActions) (store : Store) {first : Int} {divisors : List Int}
    (some : divisors ≠ []) (nonzero : 0 ∉ divisors) (not_divides : ¬ divisors.prod ∣ first) :
    Inexact (quotient added store first divisors).1 := by
  rw [quotient_of_ne_nil added store first some]
  rcases (Arithmetic.chain_inexact nonzero not_divides).cases with
    ⟨v, found, isDouble⟩ | ⟨fault, failed, isOverflow⟩
  · rw [found]
    -- a NaN is only given an identity
    cases isDouble with
    | number x => exact .double (.number x)
    | nan identity => exact .double (.nan _)
  · rw [failed]
    exact .overflow isOverflow

theorem quotient_refused (added : AddedActions) (store : Store) (first : Int) {divisors : List Int}
    (zero : 0 ∈ divisors) : Refused (quotient added store first divisors).1 := by
  rw [quotient_of_ne_nil added store first (List.ne_nil_of_mem zero)]
  generalize ended : divisors.foldlM Arithmetic.divideBy (.int first) = outcome
  have refused := Arithmetic.chain_refused zero (.whole first)
  rw [ended] at refused
  cases refused with
  | zero isZero => exact .zero isZero
  | overflow isOverflow => exact .overflow isOverflow

theorem reciprocal_whole_iff (added : AddedActions) (store : Store) (x : Int) :
    (∃ q, (quotient added store 1 [x]).1 = .ok (.int q)) ↔ x ∣ 1 := by
  have product : [x].prod = x := List.prod_singleton
  constructor
  · rintro ⟨q, whole⟩
    by_contra not_divides
    by_cases zero : x = 0
    · have refused := quotient_refused added store 1 (List.mem_singleton.mpr zero.symm)
      rw [whole] at refused
      cases refused
    · have inexact := quotient_inexact added store (List.cons_ne_nil x [])
        (by simpa [eq_comm] using zero)
        (by rwa [product])
      rw [whole] at inexact
      cases inexact with
      | double isDouble => cases isDouble
  · rintro ⟨k, one⟩
    have nonzero : 0 ∉ [x] := by
      rintro (_ | ⟨_, ⟨⟩⟩)
      simp at one
    have whole := quotient_whole added store (List.cons_ne_nil x []) nonzero k
    rw [product, ← one] at whole
    exact ⟨k, congrArg Prod.fst whole⟩

/-- A whole number divided by others is whole, and then the exact quotient, if and only if their
product divides it. If not, it is a double, or a number was too large for one; and a divisor that is
zero is refused. The reciprocal is whole for 1 and -1 only. -/
theorem quotient_whole_iff_divides (added : AddedActions) (store : Store) :
    (∀ first divisors, divisors ≠ [] → 0 ∉ divisors → divisors.prod ∣ first →
        ∃ q, quotient added store first divisors = (.ok (.int q), store) ∧
          q * divisors.prod = first) ∧
      (∀ first divisors, divisors ≠ [] → 0 ∉ divisors → ¬ divisors.prod ∣ first →
        Inexact (quotient added store first divisors).1) ∧
      (∀ first divisors, 0 ∈ divisors → Refused (quotient added store first divisors).1) ∧
      ∀ x, (∃ q, (quotient added store x []).1 = .ok (.int q)) ↔ x = 1 ∨ x = -1 := by
  refine ⟨?_, fun _ _ some nonzero => quotient_inexact added store some nonzero,
    fun first _ => quotient_refused added store first, fun x => ?_⟩
  · rintro first divisors some nonzero ⟨k, rfl⟩
    exact ⟨k, quotient_whole added store some nonzero k, Int.mul_comm _ _⟩
  · rw [quotient_nil, reciprocal_whole_iff, ← Int.isUnit_iff, isUnit_iff_dvd_one]

/-- A quotient that is whole only at the end, one that leaves a rest first, and a divisor that is
zero behind it. -/
theorem quotient_whole_iff_divides_signed :
    let added : AddedActions := fun _ _ => return .nil
    ((0 : Int) ∉ [4, -3] ∧ [4, -3].prod ∣ (-12 : Int) ∧
        ∃ q, quotient added {} (-12) [4, -3] = (.ok (.int q), {}) ∧ q * [4, -3].prod = -12) ∧
      ((0 : Int) ∉ [2, -3] ∧ ¬ [2, -3].prod ∣ (9 : Int) ∧ Inexact (quotient added {} 9 [2, -3]).1) ∧
      (0 : Int) ∈ [2, 0, 3] ∧ Refused (quotient added {} 9 [2, 0, 3]).1 := by
  intro added
  obtain ⟨whole, inexact, refused, _⟩ := quotient_whole_iff_divides added {}
  have nonzero : (0 : Int) ∉ [4, -3] := by decide
  have nonzero' : (0 : Int) ∉ [2, -3] := by decide
  have divides : [4, -3].prod ∣ (-12 : Int) := by decide
  have not_divides : ¬ [2, -3].prod ∣ (9 : Int) := by decide
  have zero : (0 : Int) ∈ [2, 0, 3] := by decide
  exact ⟨⟨nonzero, divides, whole _ _ (List.cons_ne_nil _ _) nonzero divides⟩,
    ⟨nonzero', not_divides, inexact _ _ (List.cons_ne_nil _ _) nonzero' not_divides⟩, zero,
      refused _ _ zero⟩

end ThunkLisp
