import Pictoscript.Proofs.Grammar.Sound

/-! # The grammar as procedures

The readers of the grammar recurse within a bound, and a reader that runs out of it is
`unfinished`. Here the grammar is written down a second time, as procedures that call
one another and know of no bound. What a procedure does is a `Routine`: it looks at
tokens, passes over them, calls procedures, and ends with a result or a refusal.

Nothing is said beforehand about calls coming to an end. `Routine.Runs` relates a
routine to the outcome of a run that ends, and `Routine.Meets` to what it comes to do on
the way, whether the run ends or not.
-/

namespace Pictoscript

namespace Grammar

/-! ## Procedures -/

/-- The procedures of the grammar, by the type of their results. The loops `block`,
`items`, `chain`, `parameters`, `symbols` and `moreDigits` call themselves for their next
round. -/
inductive Procedure : Type → Type where
  | block (closing : List Token) : Procedure (List Node)
  | statement : Procedure Node
  | declaration : Procedure Node
  | assignment : Procedure Node
  | branch : Procedure Node
  | loop : Procedure Node
  | definition : Procedure Node
  | parameters : Procedure (List Name)
  | print : Procedure Node
  | index : Procedure Node
  | expression (inGroup : Bool) : Procedure Node
  | chain (inGroup : Bool) (left : Node) : Procedure Node
  | operand (inGroup : Bool) : Procedure Node
  | group : Procedure Node
  | markedCall (inGroup : Bool) : Procedure Node
  | primary (inGroup : Bool) : Procedure Node
  | array (inGroup : Bool) : Procedure Node
  /-- The arguments of a call whose name is read already. -/
  | namedCall (inGroup : Bool) (callee : Name) : Procedure Node
  | items (inGroup : Bool) (close : Token) : Procedure (List Node)
  | name (role : NameRole) : Procedure Name
  | symbols : Procedure (List String)
  /-- A run of digits that begins with the digit `first`. -/
  | digits (first : Nat) : Procedure UInt64
  /-- The digits behind those that denote `value`; the run begins at `start`. -/
  | moreDigits (start : Position) (value : UInt64) : Procedure UInt64

/-- What a procedure does, step by step. -/
inductive Routine (α : Type) : Type 1 where
  | result (value : α)
  | fault (fault : Fault) (position : Position)
  /-- Looks at the first token. -/
  | look (behind : Located Token → Routine α)
  /-- Looks at the token behind the first. -/
  | peek (behind : Token → Routine α)
  /-- Passes over the first token. -/
  | advance (behind : Routine α)
  /-- Calls a procedure. -/
  | enter {β : Type} (p : Procedure β) (behind : β → Routine α)

namespace Routine

variable {α β : Type}

protected def bind : Routine α → (α → Routine β) → Routine β
  | .result a, f => f a
  | .fault e p, _ => .fault e p
  | .look k, f => .look fun t => (k t).bind f
  | .peek k, f => .peek fun t => (k t).bind f
  | .advance k, f => .advance (k.bind f)
  | .enter p k, f => .enter p fun b => (k b).bind f

instance : Monad Routine where
  pure := .result
  bind := Routine.bind

def current : Routine (Located Token) := .look .result

def following : Routine Token := .peek .result

def skip : Routine Unit := .advance (.result ())

def refuse (fault : Fault) (p : Position) : Routine α := .fault fault p

def call (p : Procedure α) : Routine α := .enter p .result

def expect (wanted : Token) : Routine Unit := do
  let t ← current
  if t.value = wanted then skip else refuse (.expected wanted t.value) t.position

/-- Behind an opening token, a name and the value it is to have. -/
def binding (role : NameRole) (build : Name → Node → Position → Node) : Routine Node := do
  let t ← current
  skip
  let bound ← call (.name role)
  expect .arrow
  let value ← call (.expression false)
  return build bound value t.position

end Routine

open Routine in
def Procedure.body {α : Type} : Procedure α → Routine α
  | .block closing => do
    let t ← current
    if t.value = .endOfInput ∨ t.value ∈ closing then
      return []
    else
      let statement ← call .statement
      let rest ← call (.block closing)
      return statement :: rest
  | .statement => do
    let t ← current
    match t.value with
    | .declare => call .declaration
    | .assign => call .assignment
    | .branch => call .branch
    | .loop => call .loop
    | .define => call .definition
    | .print => call .print
    | .callStart => call (.markedCall false)
    | .index => call .index
    | .arrow | .otherwise | .stop | .callEnd | .arrayEnd | .comma | .operator _ =>
      refuse (.cannotBeginStatement t.value) t.position
    | _ => call (.expression false)
  | .declaration => binding .declared .declaration
  | .assignment => binding .assigned .assignment
  | .branch => do
    let t ← current
    skip
    let condition ← call (.expression false)
    expect .arrow
    let consequent ← call (.block [.otherwise, .stop])
    let next ← current
    if next.value = .otherwise then
      skip
      let alternative ← call (.block [.stop])
      expect .stop
      return .branch (.ofNode condition) consequent (some alternative) t.position
    else
      expect .stop
      return .branch (.ofNode condition) consequent none t.position
  | .loop => do
    let t ← current
    skip
    let condition ← call (.expression false)
    expect .arrow
    let body ← call (.block [.stop])
    expect .stop
    return .loop (.ofNode condition) body t.position
  | .definition => do
    let t ← current
    skip
    let defined ← call (.name .function)
    let parameters ← call .parameters
    expect .arrow
    let body ← call (.block [.stop])
    expect .stop
    return .definition defined parameters body t.position
  | .parameters => do
    let t ← current
    if t.value = .comma then
      skip
      let parameter ← call (.name .parameter)
      let rest ← call .parameters
      return parameter :: rest
    else
      return []
  | .print => do
    let t ← current
    skip
    let value ← call (.expression false)
    return .print value t.position
  | .index => do
    let mark ← current
    skip
    let t ← current
    match t.value with
    | .digit first =>
      let offset ← call (.digits first)
      return .index offset.toNat mark.position
    | found => refuse (.expectedOffset found) t.position
  | .expression g => do
    let t ← current
    if t.value = .index then
      call .index
    else
      let left ← call (.operand g)
      call (.chain g left)
  | .chain g left => do
    let t ← current
    match t.value with
    | .operator op =>
      let next ← following
      skip
      if op = .not ∧ negatesLeft g next then
        call (.chain g (.expression ⟨left, some op, none, false, t.position⟩ t.position))
      else
        let right ← call (.operand g)
        call (.chain g (.expression ⟨left, some op, some right, false, t.position⟩ t.position))
    | _ => return left
  | .operand g => do
    let t ← current
    match t.value with
    | .barrier => call .group
    | .callStart => call (.markedCall g)
    | found =>
      if found.startsOperand then call (.primary g)
      else refuse (.expectedExpression found) t.position
  | .group => do
    let t ← current
    skip
    let inner ← call (.expression true)
    expect .barrier
    return .expression (.group inner) t.position
  | .markedCall g => do
    let t ← current
    skip
    let callee ← call (.name .called)
    expect .arrow
    let arguments ← call (.items g .callEnd)
    expect .callEnd
    return .call callee arguments t.position
  | .primary g => do
    let t ← current
    match t.value with
    | .digit first =>
      let value ← call (.digits first)
      if value.toNat ≤ Reading.numberLimit then
        return .number value.toNat t.position
      else
        refuse .numberTooLarge t.position
    | .text value =>
      skip
      return .text value t.position
    | .boolean value =>
      skip
      return .boolean value t.position
    | .arrayStart => call (.array g)
    | .symbol _ =>
      let callee ← call (.name .reference)
      let next ← current
      if next.value = .callStart then
        call (.namedCall g callee)
      else
        return .variable callee.text callee.position
    | found => refuse (.expectedExpression found) t.position
  | .array g => do
    let t ← current
    skip
    let elements ← call (.items g .arrayEnd)
    expect .arrayEnd
    return .array elements t.position
  | .namedCall g callee => do
    expect .callStart
    let arguments ← call (.items g .callEnd)
    expect .callEnd
    return .call callee arguments callee.position
  | .items g close => do
    let t ← current
    if t.value = .endOfInput ∨ t.value = close then
      return []
    else if t.value = .comma then
      skip
      call (.items g close)
    else
      let item ← call (.expression g)
      let rest ← call (.items g close)
      return item :: rest
  | .name role => do
    let t ← current
    match t.value with
    | .symbol unit =>
      skip
      let units ← call .symbols
      return ⟨String.join (unit :: units), t.position⟩
    | found => refuse (.expectedName role found) t.position
  | .symbols => do
    let t ← current
    match t.value with
    | .symbol unit =>
      skip
      let units ← call .symbols
      return unit :: units
    | _ => return []
  | .digits first => do
    let t ← current
    match Reading.extend? 0 first with
    | some value =>
      skip
      call (.moreDigits t.position value)
    | none => refuse .numberTooLarge t.position
  | .moreDigits start value => do
    let t ← current
    match t.value with
    | .digit digit =>
      match Reading.extend? value digit with
      | some more =>
        skip
        call (.moreDigits start more)
      | none => refuse .numberTooLarge start
    | _ => return value

/-! ## Runs -/

structure Call where
  {α : Type}
  procedure : Procedure α
  tokens : List (Located Token)

namespace Routine

open Reading (head)

variable {α β : Type} {stop : Position} {ts rest : List (Located Token)}

/-- A run of the routine where `ts` are left ends, and ends in this way. A call is
answered by a run of its procedure, and a call that fails ends the run. -/
inductive Runs (stop : Position) :
    {α : Type} → Routine α → List (Located Token) → Outcome α → Prop where
  | result {α : Type} {a : α} {ts : List (Located Token)} : Runs stop (.result a) ts (.done a ts)
  | fault {α : Type} {e : Fault} {p : Position} {ts : List (Located Token)} :
      Runs stop (.fault e p : Routine α) ts (.failed (e.report p))
  | look {α : Type} {k : Located Token → Routine α} {ts : List (Located Token)} {o : Outcome α} :
      Runs stop (k (head stop ts)) ts o → Runs stop (.look k) ts o
  | peek {α : Type} {k : Token → Routine α} {ts : List (Located Token)} {o : Outcome α} :
      Runs stop (k (head stop ts.tail).value) ts o → Runs stop (.peek k) ts o
  | advance {α : Type} {k : Routine α} {ts : List (Located Token)} {o : Outcome α} :
      Runs stop k ts.tail o → Runs stop (.advance k) ts o
  | enter {α β : Type} {p : Procedure β} {k : β → Routine α} {ts rest : List (Located Token)}
      {b : β} {o : Outcome α} :
      Runs stop p.body ts (.done b rest) → Runs stop (k b) rest o → Runs stop (.enter p k) ts o
  | enterFailed {α β : Type} {p : Procedure β} {k : β → Routine α} {ts : List (Located Token)}
      {e : SyntaxError} :
      Runs stop p.body ts (.failed e) → Runs stop (.enter p k) ts (.failed e)

/-- Something that a run does: it passes over the first of the tokens that are left, or
it calls a procedure. -/
inductive Event where
  | advance (tokens : List (Located Token))
  | call (c : Call)

/-- A run of the routine where `ts` are left comes to do this, whether it then ends or
not. -/
inductive Meets (stop : Position) :
    {α : Type} → Routine α → List (Located Token) → Event → Prop where
  | advance {α : Type} {k : Routine α} {ts : List (Located Token)} :
      Meets stop (.advance k) ts (.advance ts)
  | call {α β : Type} {p : Procedure β} {k : β → Routine α} {ts : List (Located Token)} :
      Meets stop (.enter p k) ts (.call ⟨p, ts⟩)
  | afterLook {α : Type} {k : Located Token → Routine α} {ts : List (Located Token)} {e : Event} :
      Meets stop (k (head stop ts)) ts e → Meets stop (.look k) ts e
  | afterPeek {α : Type} {k : Token → Routine α} {ts : List (Located Token)} {e : Event} :
      Meets stop (k (head stop ts.tail).value) ts e → Meets stop (.peek k) ts e
  | afterAdvance {α : Type} {k : Routine α} {ts : List (Located Token)} {e : Event} :
      Meets stop k ts.tail e → Meets stop (.advance k) ts e
  | afterCall {α β : Type} {p : Procedure β} {k : β → Routine α} {ts rest : List (Located Token)}
      {b : β} {e : Event} :
      Runs stop p.body ts (.done b rest) → Meets stop (k b) rest e → Meets stop (.enter p k) ts e

/-- A routine ends in one way at most. -/
theorem Runs.unique {ρ : Routine α} {o o' : Outcome α} (h : Runs stop ρ ts o)
    (h' : Runs stop ρ ts o') : o = o' := by
  induction h with
  | result => cases h'; rfl
  | fault => cases h'; rfl
  | look _ ih => cases h' with | look h' => exact ih h'
  | peek _ ih => cases h' with | peek h' => exact ih h'
  | advance _ ih => cases h' with | advance h' => exact ih h'
  | enter _ _ ihp ihk =>
      cases h' with
      | enter hp' hk' =>
          cases ihp hp'
          exact ihk hk'
      | enterFailed hp' => cases ihp hp'
  | enterFailed _ ihp =>
      cases h' with
      | enter hp' hk' => cases ihp hp'
      | enterFailed hp' =>
          cases ihp hp'
          rfl

/-- A routine leaves over an end of the tokens it was given. -/
theorem Runs.suffix {ρ : Routine α} {a : α} (h : Runs stop ρ ts (.done a rest)) :
    rest <:+ ts := by
  generalize ho : Outcome.done a rest = o at h
  induction h generalizing rest with
  | result => cases ho; exact List.suffix_rfl
  | fault => cases ho
  | look _ ih => exact ih ho
  | peek _ ih => exact ih ho
  | advance _ ih => exact (ih ho).trans (List.tail_suffix _)
  | enter _ _ ihp ihk => exact (ihk ho).trans (ihp rfl)
  | enterFailed => cases ho

def Event.tokens : Event → List (Located Token)
  | .advance ts => ts
  | .call c => c.tokens

theorem Meets.suffix {ρ : Routine α} {e : Event} (h : Meets stop ρ ts e) : e.tokens <:+ ts := by
  induction h with
  | advance => exact List.suffix_rfl
  | call => exact List.suffix_rfl
  | afterLook _ ih => exact ih
  | afterPeek _ ih => exact ih
  | afterAdvance _ ih => exact ih.trans (List.tail_suffix _)
  | afterCall hp _ ih => exact ih.trans hp.suffix

end Routine

end Grammar

end Pictoscript
