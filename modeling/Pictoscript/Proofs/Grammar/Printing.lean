import Mathlib.Data.Nat.Digits.Defs
import Pictoscript.Proofs.Erasure
import Pictoscript.Proofs.Shape

/-! # Printing trees

A tree is printed as the units of its constructs, in order, with single spaces
between them. Names and quoted texts are one unit each, a number has one keycap
for each decimal digit, and a call begins with its name.

Printing takes any tree. A tree is *canonical* if its nodes stand in places where
they may be written, its names and quoted texts are single units, `🚫` has no
right operand, and no statement runs on into the next.
The main statement is that a canonical program is read back from its print, up
to positions.
-/

namespace Pictoscript

open Reading Grammar

/-! ## Decimal digits -/

def decimalDigits (n : Nat) : List Nat := if n = 0 then [0] else (Nat.digits 10 n).reverse

theorem decimalDigits_ne_nil (n : Nat) : decimalDigits n ≠ [] := by
  unfold decimalDigits
  split
  · simp
  · next h => simpa [Nat.digits_eq_nil_iff_eq_zero] using h

theorem decimalDigits_lt_ten {n d : Nat} (h : d ∈ decimalDigits n) : d < 10 := by
  unfold decimalDigits at h
  split at h
  · simp_all
  · exact Nat.digits_lt_base (by decide) (List.mem_reverse.mp h)

theorem decimalValue_reverse (ds : List Nat) : decimalValue ds.reverse = Nat.ofDigits 10 ds := by
  rw [decimalValue, List.foldl_reverse, Nat.ofDigits_eq_foldr]
  congr 1
  funext d value
  simp [Nat.add_comm]

@[simp] theorem decimalValue_decimalDigits (n : Nat) : decimalValue (decimalDigits n) = n := by
  unfold decimalDigits
  split
  · next h => rw [h]; rfl
  · rw [decimalValue_reverse, Nat.ofDigits_digits]

/-! ## The printer -/

namespace Printing

def digits (n : Nat) : List Token := (decimalDigits n).map Token.digit

def parameters (names : List Name) : List Token :=
  names.flatMap fun name => [.comma, .symbol name.text]

/-- The tokens of an expression, between barriers if it is grouped. -/
def enclose (grouped : Bool) (ts : List Token) : List Token :=
  if grouped then .barrier :: (ts ++ [.barrier]) else ts

def operator : Option Operator → List Token
  | none => []
  | some op => [.operator op]

mutual
def node : Node → List Token
  | .number value _ => digits value.toNat
  | .text value _ => [.text value]
  | .boolean value _ => [.boolean value]
  | .variable name _ => [.symbol name]
  | .array elements _ => .arrayStart :: (items elements ++ [.arrayEnd])
  | .expression content _ => expression content
  | .declaration name value _ => .declare :: .symbol name.text :: .arrow :: node value
  | .assignment target value _ => .assign :: .symbol target.text :: .arrow :: node value
  | .branch condition consequent none _ =>
    .branch :: (expression condition ++ .arrow :: (block consequent ++ [.stop]))
  | .branch condition consequent (some alternative) _ =>
    .branch :: (expression condition ++ .arrow :: (block consequent ++
      .otherwise :: (block alternative ++ [.stop])))
  | .loop condition body _ =>
    .loop :: (expression condition ++ .arrow :: (block body ++ [.stop]))
  | .definition name names body _ =>
    .define :: .symbol name.text :: (parameters names ++ .arrow :: (block body ++ [.stop]))
  | .call name arguments _ =>
    .symbol name.text :: .callStart :: (items arguments ++ [.callEnd])
  | .index offset _ => .index :: digits offset
  | .print value _ => .print :: node value
def expression : Expression → List Token
  | ⟨left, op, none, grouped, _⟩ => enclose grouped (node left ++ operator op)
  | ⟨left, op, some right, grouped, _⟩ => enclose grouped (node left ++ (operator op ++ node right))
/-- Members of a list, with a comma between any two. -/
def items : List Node → List Token
  | [] => []
  | [n] => node n
  | n :: ns => node n ++ .comma :: items ns
/-- Statements, with nothing between them. -/
def block : List Node → List Token
  | [] => []
  | n :: ns => node n ++ block ns
end

end Printing

def Program.print (p : Program) : String := spell (Printing.block p.statements)

/-! ## Canonical trees -/

namespace Canonical

def isName (name : String) : Bool :=
  (Word.spelled? name.toList).isNone && Pictograph.isSymbol name.toList

/-- Nothing, or a unit that does not close a quotation. -/
def isText (value : String) : Bool :=
  value == "" || (value.toList.all (fun c => !isBlank c) && !isQuote value.toList)

/-- The end of the first tokens does not take the beginning of the second ones
as part of itself. -/
def endsBefore (ts us : List Token) : Bool :=
  !runsOn false (ts.getLast?.getD .endOfInput) (us.head?.getD .endOfInput)

/-- Trees that are printed so that they can be read back. -/
def shape : Shape where
  isName := isName
  isText := isText
  takesRight op := op != .not
  precedes n ns := endsBefore (Printing.node n) (Printing.block ns)

end Canonical

/-- All statements are canonical, and none runs on into the next. -/
def Program.Canonical (p : Program) : Prop := Canonical.shape.block p.statements = true

instance (p : Program) : Decidable p.Canonical := inferInstanceAs (Decidable (_ = true))

end Pictoscript
