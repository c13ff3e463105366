import Pictoscript.Tape
import Pictoscript.SyntaxError
import Pictoscript.Tree

/-! # Readers

A `Reading` consumes tokens from the front of a token list. It is given the
position of the end of the text, the place to report when the list runs out.

A reading has three outcomes: a value with the tokens left over, an error, or
`unfinished` when the recursion bound it was started with is used up. The
grammar starts its readings with a bound that is never used up.
-/

namespace Pictoscript

inductive Outcome (α : Type) where
  | done (value : α) (rest : List (Located Token))
  | failed (error : SyntaxError)
  | unfinished

/-- The argument `stop` is the position of the end of the text. -/
def Reading (α : Type) : Type := (stop : Position) → List (Located Token) → Outcome α

namespace Reading

variable {α β : Type}

protected def pure (a : α) : Reading α := fun _ ts => .done a ts

protected def bind (r : Reading α) (f : α → Reading β) : Reading β := fun stop ts =>
  match r stop ts with
  | .done a rest => f a stop rest
  | .failed e => .failed e
  | .unfinished => .unfinished

instance : Monad Reading where
  pure := Reading.pure
  bind := Reading.bind

/-- The reading that has no recursion left. -/
def unfinished : Reading α := fun _ _ => .unfinished

theorem pure_apply (a : α) (stop : Position) (ts : List (Located Token)) :
    (pure a : Reading α) stop ts = .done a ts := rfl

theorem bind_apply (r : Reading α) (f : α → Reading β) (stop : Position)
    (ts : List (Located Token)) :
    (r >>= f) stop ts =
      match r stop ts with
      | .done a rest => f a stop rest
      | .failed e => .failed e
      | .unfinished => .unfinished := rfl

/-- A sequence succeeds when its first part does and then its second. -/
theorem bind_eq_done_iff {r : Reading α} {f : α → Reading β} {stop : Position}
    {ts rest : List (Located Token)} {b : β} :
    (r >>= f) stop ts = .done b rest ↔
      ∃ a ts₁, r stop ts = .done a ts₁ ∧ f a stop ts₁ = .done b rest := by
  rw [bind_apply]
  cases r stop ts with
  | done a ts₁ => simp [and_assoc]
  | failed e => simp
  | unfinished => simp

/-- A sequence fails when its first part does, or else its second. -/
theorem bind_eq_failed_iff {r : Reading α} {f : α → Reading β} {stop : Position}
    {ts : List (Located Token)} {e : SyntaxError} :
    (r >>= f) stop ts = .failed e ↔
      r stop ts = .failed e ∨ ∃ a ts₁, r stop ts = .done a ts₁ ∧ f a stop ts₁ = .failed e := by
  rw [bind_apply]
  cases r stop ts with
  | done a ts₁ => simp [and_assoc]
  | failed e => simp
  | unfinished => simp

/-! ## Single tokens -/

/-- The first token, which is `endOfInput` when none is left. -/
def head (stop : Position) : List (Located Token) → Located Token
  | [] => ⟨.endOfInput, stop⟩
  | t :: _ => t

def current : Reading (Located Token) := fun stop ts => .done (head stop ts) ts

/-- Looks at the token behind the first. -/
def following : Reading Token := fun stop ts => .done (head stop ts.tail).value ts

def skip : Reading Unit := fun _ ts => .done () ts.tail

def refuse (f : Fault) (p : Position) : Reading α := fun _ _ => .failed (f.report p)

/-- Passes over the token `wanted`, refusing any other. -/
def expect (wanted : Token) : Reading Unit := do
  let t ← current
  if t.value = wanted then skip else refuse (.expected wanted t.value) t.position

/-! ## Runs of tokens -/

def symbolRun : List (Located Token) → List String × List (Located Token)
  | ⟨.symbol unit, _⟩ :: ts =>
    match symbolRun ts with
    | (units, rest) => (unit :: units, rest)
  | ts => ([], ts)

def digitRun : List (Located Token) → List Nat × List (Located Token)
  | ⟨.digit value, _⟩ :: ts =>
    match digitRun ts with
    | (values, rest) => (value :: values, rest)
  | ts => ([], ts)

def decimalValue (digits : List Nat) : Nat :=
  digits.foldl (fun value digit => 10 * value + digit) 0

/-- Ten times a number of 64 bits, unless that overflows. -/
def tenfold? (value : UInt64) : Option UInt64 :=
  if 10 * value.toNat < UInt64.size then some (10 * value) else none

def plus? (value : UInt64) (digit : Nat) : Option UInt64 :=
  if value.toNat + digit < UInt64.size then some (value + .ofNat digit) else none

/-- A number of 64 bits with one more decimal digit behind it. -/
def extend? (value : UInt64) (digit : Nat) : Option UInt64 := do
  let shifted ← tenfold? value
  plus? shifted digit

def ofDigits? (digits : List Nat) : Option UInt64 := digits.foldlM extend? 0

/-- Reads a name: one or more symbols, joined. -/
def name (role : NameRole) : Reading Name := fun stop ts =>
  match symbolRun ts with
  | ([], _) => .failed ((Fault.expectedName role (head stop ts).value).report
      (head stop ts).position)
  | (unit :: units, rest) => .done ⟨String.join (unit :: units), (head stop ts).position⟩ rest

/-- Reads a run of digits as a number of 64 bits that is at most `limit`. -/
def number (limit : Nat) : Reading Nat := fun stop ts =>
  match digitRun ts with
  | (digits, rest) =>
    match (ofDigits? digits).filter fun value => value.toNat ≤ limit with
    | some value => .done value.toNat rest
    | none => .failed (Fault.numberTooLarge.report (head stop ts).position)

/-- The largest number literal, `2 ^ 63 - 1`. -/
def numberLimit : Nat := 9223372036854775807

/-- The largest subscript, `2 ^ 64 - 1`. -/
def offsetLimit : Nat := 18446744073709551615

/-! ## Numbers of 64 bits -/

theorem toNat_of_tenfold? {value w : UInt64} (h : tenfold? value = some w) :
    w.toNat = 10 * value.toNat := by
  rw [tenfold?] at h
  split at h
  · next hlt =>
    cases h
    rw [UInt64.toNat_mul]
    exact Nat.mod_eq_of_lt hlt
  · cases h

theorem toNat_of_plus? {value w : UInt64} {digit : Nat} (h : plus? value digit = some w) :
    w.toNat = value.toNat + digit := by
  rw [plus?] at h
  split at h
  · next hlt =>
    cases h
    have hdigit : digit < UInt64.size := by omega
    rw [UInt64.toNat_add, UInt64.toNat_ofNat_of_lt' hdigit]
    exact Nat.mod_eq_of_lt hlt
  · cases h

/-- A digit is taken up just when the result fits. -/
theorem extend?_eq_some_iff {value w : UInt64} {digit : Nat} :
    extend? value digit = some w ↔ w.toNat = 10 * value.toNat + digit := by
  constructor
  · intro h
    obtain ⟨shifted, hshifted, hplus⟩ := Option.bind_eq_some_iff.mp h
    rw [toNat_of_plus? hplus, toNat_of_tenfold? hshifted]
  · intro h
    have hlt : w.toNat < UInt64.size := w.toNat_lt_size
    have hshifted : tenfold? value = some (10 * value) := if_pos (by omega)
    have hvalue : (10 * value).toNat = 10 * value.toNat := toNat_of_tenfold? hshifted
    have hplus : plus? (10 * value) digit = some (10 * value + .ofNat digit) :=
      if_pos (by omega)
    have hsum := toNat_of_plus? hplus
    have hw : 10 * value + .ofNat digit = w := UInt64.toNat_inj.mp (by omega)
    rw [extend?, hshifted, Option.bind_eq_bind, Option.bind_some, hplus, hw]

/-- Further digits never make a number smaller. -/
theorem le_foldl_digits (digits : List Nat) (value : Nat) :
    value ≤ digits.foldl (fun value digit => 10 * value + digit) value := by
  induction digits generalizing value with
  | nil => exact Nat.le_refl value
  | cons digit digits ih =>
    have hstep : value ≤ 10 * value + digit := by omega
    exact Nat.le_trans hstep (ih (10 * value + digit))

/-- Digits are taken up just when the whole number fits: once a part of them does
not fit, all of them do not. -/
theorem foldlM_extend?_eq_some_iff {digits : List Nat} {value w : UInt64} :
    digits.foldlM extend? value = some w ↔
      w.toNat = digits.foldl (fun value digit => 10 * value + digit) value.toNat := by
  induction digits generalizing value with
  | nil =>
    simp only [List.foldlM_nil, List.foldl_nil, Option.pure_def, Option.some.injEq]
    exact ⟨fun h => h ▸ rfl, fun h => UInt64.toNat_inj.mp h.symm⟩
  | cons digit digits ih =>
    simp only [List.foldlM_cons, List.foldl_cons, Option.bind_eq_bind, Option.bind_eq_some_iff,
      ih, extend?_eq_some_iff]
    constructor
    · rintro ⟨next, hnext, hw⟩
      rwa [hnext] at hw
    · intro hw
      have hle := le_foldl_digits digits (10 * value.toNat + digit)
      have hlt : w.toNat < UInt64.size := w.toNat_lt_size
      have hnext : (UInt64.ofNat (10 * value.toNat + digit)).toNat = 10 * value.toNat + digit :=
        UInt64.toNat_ofNat_of_lt' (by omega)
      refine ⟨_, hnext, ?_⟩
      rwa [hnext]

theorem ofDigits?_eq_some_iff {digits : List Nat} {w : UInt64} :
    ofDigits? digits = some w ↔ w.toNat = decimalValue digits :=
  foldlM_extend?_eq_some_iff

/-- A run of digits is read just when the number that it denotes is within the
limit, and fits. -/
theorem number_apply (limit : Nat) (stop : Position) (ts : List (Located Token)) :
    number limit stop ts =
      if decimalValue (digitRun ts).1 ≤ min limit offsetLimit then
        .done (decimalValue (digitRun ts).1) (digitRun ts).2
      else .failed (Fault.numberTooLarge.report (head stop ts).position) := by
  rw [number]
  rcases digitRun ts with ⟨digits, rest⟩
  dsimp only
  cases hword : ofDigits? digits with
  | none =>
    have hlarge : ¬decimalValue digits ≤ min limit offsetLimit := by
      intro hle
      have hfits : decimalValue digits < UInt64.size :=
        Nat.lt_succ_of_le (Nat.le_trans hle (Nat.min_le_right limit offsetLimit))
      have hsome := ofDigits?_eq_some_iff.mpr (UInt64.toNat_ofNat_of_lt' hfits)
      rw [hword] at hsome
      cases hsome
    rw [if_neg hlarge]
    rfl
  | some w =>
    have hvalue := ofDigits?_eq_some_iff.mp hword
    have hfits : decimalValue digits ≤ offsetLimit := by
      rw [← hvalue]
      exact Nat.le_of_lt_succ w.toNat_lt_size
    rw [← hvalue] at hfits ⊢
    by_cases hle : w.toNat ≤ limit
    · rw [Option.filter_some_pos (by simpa using hle), if_pos (Nat.le_min.mpr ⟨hle, hfits⟩)]
    · rw [Option.filter_some_neg (by simpa using hle),
        if_neg fun h => hle (Nat.le_min.mp h).1]

end Reading

end Pictoscript
