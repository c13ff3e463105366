import Pictoscript.Proofs.Grammar.Printing

/-! # Runs of digits

Digits that stand side by side are one number, whose value is that of the run in
base ten. The number is taken up digit by digit in 64 bits, where it is multiplied
by ten and then added to, and gives up at the first step that does not fit. A
number literal has to fit in 63 bits besides.

What is read depends on the value of the whole run only. Leading zeros never make
a step fail, and a step that fails is never made up for by the digits behind it.
-/

namespace Pictoscript

namespace Reading

/-! ## On the way through a run -/

/-- Every number on the way through the digits is the number of the digits so far,
and ten times that between multiplication and addition: nothing wraps. -/
structure NeverWraps (digits : List Nat) : Prop where
  sums : ∀ front w, front <+: digits → ofDigits? front = some w →
    w.toNat = Nat.ofDigits 10 front.reverse
  products : ∀ front w u, front <+: digits → ofDigits? front = some w → tenfold? w = some u →
    u.toNat = 10 * Nat.ofDigits 10 front.reverse

theorem toNat_of_ofDigits? {digits : List Nat} {w : UInt64} (h : ofDigits? digits = some w) :
    w.toNat = Nat.ofDigits 10 digits.reverse := by
  rw [ofDigits?_eq_some_iff.mp h, ← decimalValue_reverse, List.reverse_reverse]

theorem neverWraps (digits : List Nat) : NeverWraps digits where
  sums _ _ _ h := toNat_of_ofDigits? h
  products _ _ _ _ h hshifted := by
    rw [toNat_of_tenfold? hshifted, toNat_of_ofDigits? h]

end Reading

namespace Grammar

open Reading

variable {d v : Nat} {ds : List Nat} {p : Position} {more rest : List (Located Token)}

/-! ## The whole run -/

/-- A run of digits is read as a whole, or refused at its first digit. -/
theorem number_digits (hrun : more.map Located.value = ds.map Token.digit)
    (hnext : ∀ e, nextToken rest ≠ .digit e) (hv : v = Nat.ofDigits 10 (d :: ds).reverse)
    {limit : Nat} (hlimit : limit ≤ offsetLimit) (stop : Position) :
    number limit stop (⟨.digit d, p⟩ :: (more ++ rest)) =
      if v ≤ limit then .done v rest else .failed (Fault.numberTooLarge.report p) := by
  have hvalues : (⟨.digit d, p⟩ :: more : List (Located Token)).map Located.value =
      (d :: ds).map Token.digit := by
    rw [List.map_cons, List.map_cons, hrun]
  have hcut : digitRun (⟨.digit d, p⟩ :: (more ++ rest)) = (d :: ds, rest) :=
    cutsRun_digitRun.append hnext hvalues
  have hvalue : decimalValue (d :: ds) = v := by
    rw [hv, ← decimalValue_reverse, List.reverse_reverse]
  rw [number_apply, hcut]
  dsimp only
  rw [hvalue, Nat.min_eq_left hlimit]
  rfl

/-- **Digit runs.** Where an operand is expected, a run of digits is one number
literal if its value is at most `2 ^ 63 - 1`; behind `🔎` it is one subscript if its
value is at most `2 ^ 64 - 1`. Exactly the run is consumed. A larger value is refused
at the first digit, however long the run is. -/
theorem digit_run_exact (hrun : more.map Located.value = ds.map Token.digit)
    (hnext : ∀ e, nextToken rest ≠ .digit e) (hv : v = Nat.ofDigits 10 (d :: ds).reverse)
    (stop : Position) :
    (∀ bound inGroup,
      operandWithin (bound + 1) inGroup stop (⟨.digit d, p⟩ :: (more ++ rest)) =
        if v ≤ 2 ^ 63 - 1 then .done (.number v p) rest
        else .failed ⟨.invalidExpression, "Number literal is too large", p⟩) ∧
      (∀ bound inGroup q,
        expressionWithin (bound + 1) inGroup stop
            (⟨.index, q⟩ :: ⟨.digit d, p⟩ :: (more ++ rest)) =
          if v ≤ 2 ^ 64 - 1 then .done (.index v q) rest
          else .failed ⟨.invalidExpression, "Number literal is too large", p⟩) ∧
      NeverWraps (d :: ds) := by
  refine ⟨?_, ?_, neverWraps (d :: ds)⟩
  · intro bound inGroup
    have hread : number numberLimit stop (⟨.digit d, p⟩ :: (more ++ rest)) =
        if v ≤ 2 ^ 63 - 1 then .done v rest else .failed (Fault.numberTooLarge.report p) :=
      number_digits hrun hnext hv (by decide) stop
    simp only [operandWithin, current_bind_apply, head_cons]
    rw [bind_apply, hread]
    by_cases hle : v ≤ 2 ^ 63 - 1
    · rw [if_pos hle, if_pos hle]
      rfl
    · rw [if_neg hle, if_neg hle]
      rfl
  · intro bound inGroup q
    have hread : number offsetLimit stop (⟨.digit d, p⟩ :: (more ++ rest)) =
        if v ≤ 2 ^ 64 - 1 then .done v rest else .failed (Fault.numberTooLarge.report p) :=
      number_digits hrun hnext hv (Nat.le_refl offsetLimit) stop
    rw [expressionWithin, current_bind_apply, head_cons, if_pos rfl]
    simp only [index, current_bind_apply, skip_bind_apply, head_cons, List.tail_cons]
    rw [bind_apply, hread]
    by_cases hle : v ≤ 2 ^ 64 - 1
    · rw [if_pos hle, if_pos hle]
      rfl
    · rw [if_neg hle, if_neg hle]
      rfl

/-- `10 ^ 19` behind a leading zero: too large for a literal, but not for a subscript. -/
theorem digit_run_exact_leading_zero :
    operandWithin 1 false ⟨1, 90⟩ (⟨.digit 0, ⟨1, 3⟩⟩ :: (⟨.digit 1, ⟨1, 7⟩⟩ ::
        List.replicate 19 ⟨.digit 0, ⟨1, 11⟩⟩ ++ [⟨.print, ⟨1, 88⟩⟩])) =
        .failed ⟨.invalidExpression, "Number literal is too large", ⟨1, 3⟩⟩ ∧
      expressionWithin 1 false ⟨1, 90⟩ (⟨.index, ⟨1, 1⟩⟩ :: ⟨.digit 0, ⟨1, 3⟩⟩ ::
        (⟨.digit 1, ⟨1, 7⟩⟩ :: List.replicate 19 ⟨.digit 0, ⟨1, 11⟩⟩ ++ [⟨.print, ⟨1, 88⟩⟩])) =
        .done (.index (10 ^ 19) ⟨1, 1⟩) [⟨.print, ⟨1, 88⟩⟩] := by
  have hrun : (⟨.digit 1, ⟨1, 7⟩⟩ :: List.replicate 19 ⟨.digit 0, ⟨1, 11⟩⟩ :
      List (Located Token)).map Located.value = (1 :: List.replicate 19 0).map Token.digit := rfl
  have hnext : ∀ e, nextToken [⟨.print, ⟨1, 88⟩⟩] ≠ .digit e := by simp
  have hv : 10 ^ 19 = Nat.ofDigits 10 (0 :: 1 :: List.replicate 19 0).reverse := by decide
  obtain ⟨hoperand, hindex, -⟩ := digit_run_exact (p := ⟨1, 3⟩) hrun hnext hv ⟨1, 90⟩
  refine ⟨(hoperand 0 false).trans ?_, (hindex 0 false ⟨1, 1⟩).trans ?_⟩
  · exact if_neg (by decide)
  · exact if_pos (by decide)

end Grammar

end Pictoscript
