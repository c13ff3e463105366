import Pictoscript.Tape
import Pictoscript.SyntaxError
import Pictoscript.Tree

/-! # Transcriptions

A transcription writes a text down anew: it moves the tokens to other places and spells
names and quoted texts in another way. The words of the vocabulary stay what they are.

Readers join the units of a name. A transcription therefore comes with a proof that
respelling units one by one respells the name.
-/

namespace Pictoscript

structure Transcription where
  place : Position → Position
  spell : String → String
  spell_join : ∀ units, spell (String.join units) = String.join (units.map spell)

/-- Is the token spelled in one way only? -/
def Token.isFixed : Token → Bool
  | .text _ | .symbol _ | .illegal _ => false
  | _ => true

namespace Transcription

variable (τ : Transcription)

/-! ## What is transcribed -/

/-- Only tokens that hold a spelling are respelled. -/
def token : Token → Token
  | .text value => .text (τ.spell value)
  | .symbol unit => .symbol (τ.spell unit)
  | .illegal unit => .illegal (τ.spell unit)
  | t => t

def located (t : Located Token) : Located Token := ⟨τ.token t.value, τ.place t.position⟩

def tokens (ts : Tokens) : Tokens := ⟨ts.items.map τ.located, τ.place ts.stop⟩

def name (n : Name) : Name := ⟨τ.spell n.text, τ.place n.position⟩

mutual
def node : Node → Node
  | .number value p => .number value (τ.place p)
  | .text value p => .text (τ.spell value) (τ.place p)
  | .boolean value p => .boolean value (τ.place p)
  | .variable name p => .variable (τ.spell name) (τ.place p)
  | .array elements p => .array (nodes elements) (τ.place p)
  | .expression content p => .expression (expression content) (τ.place p)
  | .declaration name value p => .declaration (τ.name name) (node value) (τ.place p)
  | .assignment target value p => .assignment (τ.name target) (node value) (τ.place p)
  | .branch condition consequent none p =>
    .branch (expression condition) (nodes consequent) none (τ.place p)
  | .branch condition consequent (some alternative) p =>
    .branch (expression condition) (nodes consequent) (some (nodes alternative)) (τ.place p)
  | .loop condition body p => .loop (expression condition) (nodes body) (τ.place p)
  | .definition name parameters body p =>
    .definition (τ.name name) (parameters.map τ.name) (nodes body) (τ.place p)
  | .call name arguments p => .call (τ.name name) (nodes arguments) (τ.place p)
  | .index offset p => .index offset (τ.place p)
  | .print value p => .print (node value) (τ.place p)
def expression : Expression → Expression
  | ⟨left, operator, none, grouped, p⟩ => ⟨node left, operator, none, grouped, τ.place p⟩
  | ⟨left, operator, some right, grouped, p⟩ =>
    ⟨node left, operator, some (node right), grouped, τ.place p⟩
def nodes : List Node → List Node
  | [] => []
  | n :: ns => node n :: nodes ns
end

def program (p : Program) : Program := ⟨τ.nodes p.statements, τ.place p.position⟩

def fault : Fault → Fault
  | .expected wanted found => .expected wanted (τ.token found)
  | .expectedName role found => .expectedName role (τ.token found)
  | .expectedExpression found => .expectedExpression (τ.token found)
  | .expectedOffset found => .expectedOffset (τ.token found)
  | .cannotBeginStatement found => .cannotBeginStatement (τ.token found)
  | .numberTooLarge => .numberTooLarge

variable {τ}

/-! ## What stays -/

theorem kind_fault (fault : Fault) : (τ.fault fault).kind = fault.kind := by
  cases fault with
  | expected _ found | expectedName _ found | expectedExpression found => cases found <;> rfl
  | _ => rfl

theorem token_eq_iff {t w : Token} (hw : w.isFixed = true) : τ.token t = w ↔ t = w := by
  constructor
  · intro h
    cases t with
    | text value | symbol unit | illegal unit => subst h; cases hw
    | _ => exact h
  · rintro rfl
    cases t with
    | text value | symbol unit | illegal unit => cases hw
    | _ => rfl

theorem token_mem_iff {t : Token} {ws : List Token} (hws : ∀ w ∈ ws, w.isFixed = true) :
    τ.token t ∈ ws ↔ t ∈ ws := by
  constructor
  · intro h
    rwa [(token_eq_iff (hws _ h)).mp rfl]
  · intro h
    rwa [(token_eq_iff (hws _ h)).mpr rfl]

theorem position_node (n : Node) : (τ.node n).position = τ.place n.position := by
  cases n with
  | branch condition consequent alternative p => cases alternative <;> rfl
  | _ => rfl

theorem grouped_expression (e : Expression) : (τ.expression e).grouped = e.grouped := by
  obtain ⟨left, operator, right, grouped, p⟩ := e
  cases right <;> rfl

theorem expression_with_grouped (e : Expression) (g : Bool) :
    τ.expression { e with grouped := g } = { τ.expression e with grouped := g } := by
  obtain ⟨left, operator, right, grouped, p⟩ := e
  cases right <;> rfl

theorem expression_ofOperand (n : Node) :
    τ.expression (.ofOperand n) = .ofOperand (τ.node n) := by
  rw [Expression.ofOperand, Expression.ofOperand, position_node]
  rfl

theorem expression_ofNode (n : Node) : τ.expression (.ofNode n) = .ofNode (τ.node n) := by
  cases n with
  | expression content p => rfl
  | branch condition consequent alternative p => cases alternative <;> rfl
  | _ => exact expression_ofOperand _

theorem expression_group (n : Node) : τ.expression (.group n) = .group (τ.node n) := by
  cases n with
  | expression content p =>
      rw [Expression.group, node, Expression.group, grouped_expression]
      split
      · rfl
      · exact expression_with_grouped content true
  | branch condition consequent alternative p => cases alternative <;> rfl
  | _ => rfl

theorem toList_tokens (ts : Tokens) : (τ.tokens ts).toList = ts.toList.map τ.located := by
  rw [Tokens.toList, Tokens.toList, List.map_append]
  rfl

end Transcription

end Pictoscript
