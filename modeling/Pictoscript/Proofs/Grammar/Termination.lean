import Mathlib.Logic.ExistsUnique
import Mathlib.Logic.Relation
import Pictoscript.Proofs.Grammar.Descent
import Pictoscript.Proofs.Grammar.Followed
import Pictoscript.Proofs.Lexing

/-! # Reading comes to an end

Since every call descends, every call that is ready has an outcome: the induction is on the
tokens left and the rank. The calls that come about while a text is read are all ready,
since the first one is and a body calls only procedures that are. So reading ends on every
text, and it ends as the readers of the grammar say, whose bounds are never used up.
-/

namespace Pictoscript

namespace Grammar

open Reading (head)

/-! ## From bodies to runs -/

namespace Call

def Yields (stop : Position) (c : Call) (o : Outcome c.α) : Prop :=
  c.procedure.body.Runs stop c.tokens o

def Meets (stop : Position) (c : Call) (e : Routine.Event) : Prop :=
  c.procedure.body.Meets stop c.tokens e

def Makes (stop : Position) (c c' : Call) : Prop := c.Meets stop (.call c')

/-- The call has an outcome, within the limit of its procedure. -/
def Ends (stop : Position) (c : Call) : Prop :=
  ∃ o, c.Yields stop o ∧ o.Leaves (c.procedure.limit c.tokens.length)

end Call

namespace Routine

variable {α : Type} {stop : Position} {allowed : Call → Prop} {n : Nat} {ρ : Routine α}
  {ts : List (Located Token)}

/-- There is a token to pass over, or the call is allowed. -/
def Event.Proper (allowed : Call → Prop) : Event → Prop
  | .advance us => us ≠ []
  | .call c => allowed c

/-- A routine whose calls end comes to an end. -/
theorem Obeys.exists_runs (h : ρ.Obeys stop allowed n ts)
    (hends : ∀ c, allowed c → c.Ends stop) : ∃ o, ρ.Runs stop ts o ∧ o.Leaves n := by
  induction ρ generalizing ts with
  | result a => exact ⟨_, .result, h⟩
  | fault e p => exact ⟨_, .fault, trivial⟩
  | look k ih =>
      obtain ⟨o, hrun, ho⟩ := ih _ h
      exact ⟨o, .look hrun, ho⟩
  | peek k ih =>
      obtain ⟨o, hrun, ho⟩ := ih _ h
      exact ⟨o, .peek hrun, ho⟩
  | advance k ih =>
      obtain ⟨o, hrun, ho⟩ := ih h.2
      exact ⟨o, .advance hrun, ho⟩
  | enter p k ih =>
      obtain ⟨o, hcall, hleaves⟩ := hends _ h.1
      cases o with
      | done b rest =>
          obtain ⟨o, hrun, ho⟩ := ih b (h.2 b rest hleaves)
          exact ⟨o, .enter hcall hrun, ho⟩
      | failed e => exact ⟨_, .enterFailed hcall, trivial⟩
      | unfinished => exact hleaves.elim

/-- Whatever a routine comes to do is proper, if its calls end. -/
theorem Obeys.of_meets {e : Event} (h : ρ.Obeys stop allowed n ts)
    (hends : ∀ c, allowed c → c.Ends stop) (he : ρ.Meets stop ts e) : e.Proper allowed := by
  induction he with
  | advance => exact h.1
  | call => exact h.1
  | afterLook _ ih => exact ih h
  | afterPeek _ ih => exact ih h
  | afterAdvance _ ih => exact ih h.2
  | afterCall hp _ ih =>
      obtain ⟨o, hcall, hleaves⟩ := hends _ h.1
      cases hcall.unique hp
      exact ih (h.2 _ _ hleaves)

end Routine

namespace Call

variable {stop : Position} {c c' : Call}

/-- Every call that is ready has an outcome: so has every call below it, and its body
makes no others. -/
theorem Ready.ends (h : c.Ready stop) : c.Ends stop := by
  induction c using wellFounded_below.induction with
  | h c ih => exact (proceeds c.procedure h).exists_runs fun c' hc' => ih c' hc'.below hc'.ready

theorem Ready.admits (h : c.Ready stop) (hc' : c.Makes stop c') : c.Admits stop c' :=
  (proceeds c.procedure h).of_meets (fun _ hadmits => hadmits.ready.ends) hc'

theorem Ready.ne_nil {us : List (Located Token)} (h : c.Ready stop)
    (hus : c.Meets stop (.advance us)) : us ≠ [] :=
  (proceeds c.procedure h).of_meets (fun _ hadmits => hadmits.ready.ends) hus

/-- All calls that come about behind a call that is ready are ready as well. -/
theorem Ready.of_makes (h : c.Ready stop) (hc' : Relation.ReflTransGen (Makes stop) c c') :
    c'.Ready stop := by
  induction hc' with
  | refl => exact h
  | tail _ hmakes ih => exact (ih.admits hmakes).ready

/-! ## The readers of the grammar -/

/-- The reader that does the work of a procedure, with the bound that it is started with.
The other procedures are parts of these readers. -/
def reader? {α : Type} : Procedure α → Option (Reading α)
  | .block closing => some fun stop ts => blockWithin (blockBound ts) closing stop ts
  | .statement => some fun stop ts => statementWithin (blockBound ts) stop ts
  | .parameters => some fun stop ts => parametersWithin (blockBound ts) stop ts
  | .index => some Grammar.index
  | .expression g => some fun stop ts => expressionWithin (expressionBound ts) g stop ts
  | .chain g left => some fun stop ts => chainWithin (expressionBound ts) g left stop ts
  | .operand g => some fun stop ts => operandWithin (expressionBound ts) g stop ts
  | .items g close => some fun stop ts => itemsWithin (expressionBound ts) g close stop ts
  | .name role => some (Reading.name role)
  | _ => none

/-- A reader is never unfinished, so its answer is what its procedure comes to. -/
theorem Ready.runs_reader {α : Type} {p : Procedure α} {ts : List (Located Token)} {r : Reading α}
    (h : Ready stop ⟨p, ts⟩) (hr : reader? p = some r) : p.body.Runs stop ts (r stop ts) := by
  have hexpression : 3 * ts.length + 3 ≤ expressionBound ts := Nat.le_refl _
  have hblock : 2 * ts.length + 2 ≤ blockBound ts := Nat.le_refl _
  cases p <;> cases hr
  case block closing =>
    exact follows_blockWithin _ closing ts (leaves_blockWithin _ closing ts hblock).ne_unfinished
  case statement =>
    exact follows_statementWithin _ ts (leaves_statementWithin _ ts (by omega)).ne_unfinished
  case parameters =>
    exact follows_parametersWithin _ ts (leaves_parametersWithin _ ts (by omega)).ne_unfinished
  case index =>
    have hhead : head stop ts = ⟨.index, (head stop ts).position⟩ := by
      rw [← h _ rfl]
    exact follows_index (leaves_index hhead).ne_unfinished
  case expression g =>
    exact follows_expressionWithin _ g ts
      (leaves_expressionWithin _ g ts (by omega)).ne_unfinished
  case chain g left =>
    exact follows_chainWithin _ g left ts
      (leaves_chainWithin _ g left ts (by omega)).ne_unfinished
  case operand g =>
    exact follows_operandWithin _ g ts (leaves_operandWithin _ g ts (by omega)).ne_unfinished
  case items g close =>
    exact follows_itemsWithin _ g close ts
      (leaves_itemsWithin _ g close ts hexpression).ne_unfinished
  case name role => exact follows_name role (Reading.leaves_name role).ne_unfinished

/-! ## Reading a text -/

def start (source : String) : Call := ⟨.block [], (tokenize source).items⟩

/-- The call comes about while the text is read. -/
def Reached (source : String) (c : Call) : Prop :=
  Relation.ReflTransGen (Makes (tokenize source).stop) (start source) c

/-- How a call gets on, whatever tokens it is made at. -/
structure Progresses (stop : Position) (c : Call) : Prop where
  /-- No token is passed over at the end of the text. -/
  before_end : ∀ us, c.Meets stop (.advance us) → us ≠ []
  /-- A success consumes tokens from the front, and at least one if this is no loop. -/
  consumes : ∀ a rest, c.Yields stop (.done a rest) →
    rest <:+ c.tokens ∧ (c.procedure.isLoop = false → rest.length < c.tokens.length)
  /-- The next round of a loop has fewer tokens left. -/
  rounds : c.procedure.isLoop = true → ∀ c', c.Makes stop c' →
    c'.procedure.isLoop = true → c'.tokens.length < c.tokens.length
  /-- Every call is made where fewer tokens are left, or none is consumed and the
  procedure that is called has a lower rank. -/
  descends : ∀ c', c.Makes stop c' → c'.tokens <:+ c.tokens ∧ c'.Below c
  /-- There is one outcome. -/
  total : ∃! o, c.Yields stop o
  /-- The reader for the procedure, if it has one of its own, gives that outcome. -/
  reads : ∀ r, reader? c.procedure = some r → c.Yields stop (r stop c.tokens)

theorem Ready.progresses (h : c.Ready stop) : c.Progresses stop where
  before_end us hus := h.ne_nil hus
  consumes a rest hdone := by
    obtain ⟨o, ho, hleaves⟩ := h.ends
    cases ho.unique hdone
    refine ⟨hdone.suffix, fun hloop => ?_⟩
    rwa [Procedure.limit, hloop] at hleaves
  rounds hloop c' hc' := (h.admits hc').round hloop
  descends c' hc' := ⟨Routine.Meets.suffix hc', (h.admits hc').below⟩
  total := by
    obtain ⟨o, ho, -⟩ := h.ends
    exact ⟨o, ho, fun o' ho' => ho'.unique ho⟩
  reads r hr := h.runs_reader hr

end Call

end Grammar

namespace Program

open Grammar

/-- The statements of a text go on up to its end. -/
theorem nil_of_statements {source : String} {ns : List Node} {rest : List (Located Token)}
    (h : Grammar.statements (tokenize source).stop (tokenize source).items = .done ns rest) :
    rest = [] := by
  obtain ⟨us, hus, -, hend⟩ := written_blockWithin _ _ _ _ _ h
  cases rest with
  | nil => rfl
  | cons t rest =>
      have ht : t ∈ (tokenize source).items := hus ▸ by simp
      rcases hend with hend | hend
      · exact absurd hend (tokenize_ne_endOfInput source t ht)
      · cases hend

/-- The text comes to the outcome of the procedures, and a program leaves no token over. -/
theorem start_yields (source : String) :
    (∃ ns, (Call.start source).Yields (tokenize source).stop (.done ns []) ∧
      ofSource source =
        .ok ⟨ns, (Reading.head (tokenize source).stop (tokenize source).items).position⟩) ∨
    ∃ e, (Call.start source).Yields (tokenize source).stop (.failed e) ∧
      ofSource source = .error e := by
  have hready : (Call.start source).Ready (tokenize source).stop := Call.ready_of_opening rfl
  have hread := hready.runs_reader rfl
  change Routine.Runs _ _ _ (Grammar.statements (tokenize source).stop (tokenize source).items)
    at hread
  cases hout : Grammar.statements (tokenize source).stop (tokenize source).items with
  | done ns rest =>
      rw [hout] at hread
      obtain rfl : rest = [] := nil_of_statements hout
      refine .inl ⟨ns, hread, ?_⟩
      rw [ofSource, ofTokens, Outcome.settle_eq_ok_iff.mpr ⟨[], hout⟩]
  | failed e =>
      rw [hout] at hread
      refine .inr ⟨e, hread, ?_⟩
      rw [ofSource, ofTokens, Outcome.settle_eq_error_iff.mpr hout]
  | unfinished => exact absurd hout (statements_ne_unfinished _ _)

/-- **Reading makes progress and comes to an end,** on every text. A tape that passes over a
character, or gives a unit or a token, has fewer bytes left, and a cursor that gives a unit
or a token has fewer characters left. Every call of a procedure that
comes about while the text is read consumes a token or fails, unless it is a loop, and
never passes the end; the next round of a loop, and every other call that is made, has
fewer tokens left or a lower rank; and every such call has one outcome. That of the first
is the program of the text or the error. -/
theorem ofSource_progresses (source : String) :
    (∀ (t : Tape) (c : Char), t.current? = some c → t.bump.left < t.left) ∧
    (∀ (t after : Tape) (u : Located String), t.unit? = (some u, after) → after.left < t.left) ∧
    (∀ t : Tape, t.next.1.value ≠ .endOfInput →
      t.next.2.left < t.left ∧ t.tokens.items = t.next.1 :: t.next.2.tokens.items) ∧
    (∀ (k after : Cursor) (u : Located (List Char)), k.unit? = some (u, after) →
      after.rest.length < k.rest.length) ∧
    (∀ (k after : Cursor) (t : Located Token), k.next? = some (t, after) →
      after.rest.length < k.rest.length ∧ k.tokens.items = t :: after.tokens.items) ∧
    (∀ c, Call.Reached source c → c.Progresses (tokenize source).stop) ∧
    ((∃ ns, (Call.start source).Yields (tokenize source).stop (.done ns []) ∧
      ofSource source =
        .ok ⟨ns, (Reading.head (tokenize source).stop (tokenize source).items).position⟩) ∨
    ∃ e, (Call.start source).Yields (tokenize source).stop (.failed e) ∧
      ofSource source = .error e) := by
  refine ⟨fun t c h => Tape.left_bump_lt h, fun t after u h => Tape.left_lt_of_unit? h, ?_,
    fun k after u h => Cursor.length_lt_of_unit? h, ?_, ?_, start_yields source⟩
  · intro t h
    refine ⟨Tape.left_next_lt h, ?_⟩
    rw [Tape.tokens, dif_neg h]
  · intro k after t h
    exact ⟨Cursor.length_lt_of_next? h, congrArg Tokens.items (Cursor.tokens_of_next?_some h)⟩
  · intro c hc
    have hready : (Call.start source).Ready (tokenize source).stop := Call.ready_of_opening rfl
    exact (hready.of_makes hc).progresses

/-- A group that is opened at the end of a text: the call that reads it is five calls
deep, and it passes over the barrier and no further. -/
theorem ofSource_progresses_group :
    Call.Reached "📢 🚧" ⟨.group, [⟨.barrier, ⟨1, 3⟩⟩]⟩ ∧
      Call.Progresses ⟨1, 4⟩ ⟨.group, [⟨.barrier, ⟨1, 3⟩⟩]⟩ := by
  have htokens : tokenize "📢 🚧" =
      ⟨[⟨.print, ⟨1, 1⟩⟩, ⟨.barrier, ⟨1, 3⟩⟩], ⟨1, 4⟩⟩ := by
    decide +kernel
  have hreached : Call.Reached "📢 🚧" ⟨.group, [⟨.barrier, ⟨1, 3⟩⟩]⟩ := by
    rw [Call.Reached, Call.start, htokens]
    have hstatement : Call.Makes ⟨1, 4⟩ ⟨.block [], [⟨.print, ⟨1, 1⟩⟩, ⟨.barrier, ⟨1, 3⟩⟩]⟩
        ⟨.statement, [⟨.print, ⟨1, 1⟩⟩, ⟨.barrier, ⟨1, 3⟩⟩]⟩ := .afterLook .call
    have hprint : Call.Makes ⟨1, 4⟩ ⟨.statement, [⟨.print, ⟨1, 1⟩⟩, ⟨.barrier, ⟨1, 3⟩⟩]⟩
        ⟨.print, [⟨.print, ⟨1, 1⟩⟩, ⟨.barrier, ⟨1, 3⟩⟩]⟩ := .afterLook .call
    have hexpression : Call.Makes ⟨1, 4⟩ ⟨.print, [⟨.print, ⟨1, 1⟩⟩, ⟨.barrier, ⟨1, 3⟩⟩]⟩
        ⟨.expression false, [⟨.barrier, ⟨1, 3⟩⟩]⟩ := .afterLook (.afterAdvance .call)
    have hoperand : Call.Makes ⟨1, 4⟩ ⟨.expression false, [⟨.barrier, ⟨1, 3⟩⟩]⟩
        ⟨.operand false, [⟨.barrier, ⟨1, 3⟩⟩]⟩ := .afterLook .call
    have hgroup : Call.Makes ⟨1, 4⟩ ⟨.operand false, [⟨.barrier, ⟨1, 3⟩⟩]⟩
        ⟨.group, [⟨.barrier, ⟨1, 3⟩⟩]⟩ := .afterLook .call
    exact ((((Relation.ReflTransGen.single hstatement).tail hprint).tail hexpression).tail
      hoperand).tail hgroup
  have hprogresses := (ofSource_progresses "📢 🚧").2.2.2.2.2.1 _ hreached
  rw [htokens] at hprogresses
  exact ⟨hreached, hprogresses⟩

end Program

end Pictoscript
