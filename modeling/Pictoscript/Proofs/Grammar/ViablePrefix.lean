import Pictoscript.Proofs.Grammar.Extension
import Pictoscript.Proofs.Grammar.RoundTrip
import Pictoscript.Proofs.Lexing.Concatenation

/-! # Texts that can be finished

An error at the end of a text says that the text is not finished, an error before
the end that it never will be. The second is a matter of reading a longer text
(`Extension`). For the first the missing tokens are named: whatever the readers
are in the middle of when the tokens run out, a few tokens more complete it, `✅`
for an expression, `🍉` for a name, and the closing token of each construct that
is still open, from the innermost to the outermost.

The proofs follow the readers as those of `Sound` do. There a reader had
succeeded and its tokens wrote a phrase; here it failed at the end, and its tokens
with some more behind them write one.
-/

namespace Pictoscript

namespace Grammar

open Reading Canonical

/-! ## Completions -/

/-- With some tokens behind it the text has the property, at whatever positions
those stand. -/
def Completable (P : List (Located Token) → Prop) (ts : List (Located Token)) : Prop :=
  ∃ cs : List Token, (∀ c ∈ cs, c.Spellable) ∧
    ∀ vs : List (Located Token), vs.map Located.value = cs → P (ts ++ vs)

/-- The tokens write some phrase of the kind. -/
def IsPhrase {α : Type} (φ : α → Phrase) (ts : List (Located Token)) : Prop :=
  ∃ a, Written (φ a) ts

/-- What `P` describes with the token `close` behind it. -/
def Closed {α : Type} (P : α → List (Located Token) → Prop) (close : Token)
    (ts : List (Located Token)) : Prop :=
  ∃ a us q, P a us ∧ ts = us ++ [⟨close, q⟩]

section Completable

variable {P Q : List (Located Token) → Prop} {ts : List (Located Token)}

theorem located_singleton {c : Token} {vs : List (Located Token)}
    (h : vs.map Located.value = [c]) : ∃ q, vs = [⟨c, q⟩] := by
  obtain ⟨q, us, rfl, hus⟩ := located_cons h
  exact ⟨q, by rw [List.map_eq_nil_iff.mp hus]⟩

/-- One token is missing. -/
theorem completable_singleton {c : Token} (hc : c.Spellable)
    (h : ∀ q, P (ts ++ [⟨c, q⟩])) : Completable P ts := by
  refine ⟨[c], by simpa using hc, ?_⟩
  intro vs hvs
  obtain ⟨q, rfl⟩ := located_singleton hvs
  exact h q

/-- A completion of a part completes the whole if nothing has to follow it. -/
theorem Completable.map {whole : List (Located Token)} (h : Completable P ts)
    (us : List (Located Token)) (hwhole : whole = us ++ ts)
    (hQ : ∀ zs, ts <+: zs → P zs → Q (us ++ zs)) : Completable Q whole := by
  obtain ⟨cs, hcs, hP⟩ := h
  refine ⟨cs, hcs, ?_⟩
  intro vs hvs
  rw [hwhole, List.append_assoc]
  exact hQ (ts ++ vs) (List.prefix_append ts vs) (hP vs hvs)

/-- A completion of a part and one token behind it complete the whole. -/
theorem Completable.close {whole : List (Located Token)} {c : Token} (h : Completable P ts)
    (hc : c.Spellable) (us : List (Located Token)) (hwhole : whole = us ++ ts)
    (hQ : ∀ zs q, P zs → Q (us ++ (zs ++ [⟨c, q⟩]))) : Completable Q whole := by
  obtain ⟨cs, hcs, hP⟩ := h
  refine ⟨cs ++ [c], ?_, ?_⟩
  · simpa [or_imp, forall_and] using ⟨hcs, hc⟩
  · intro vs hvs
    obtain ⟨ws, q, rfl, hws⟩ := located_append_singleton hvs
    have hcompleted := hQ (ts ++ ws) q (hP ws hws)
    rw [hwhole]
    simpa only [List.append_assoc] using hcompleted

end Completable

theorem spellable_symbol : (Token.symbol "🍉").Spellable := spellable_name (by decide)

/-! ## Errors at the end -/

variable {stop : Position} {ts : List (Located Token)} {e : SyntaxError}

/-- No token stands where the text ends. -/
def Before (stop : Position) (ts : List (Located Token)) : Prop := ∀ t ∈ ts, t.position ≠ stop

theorem Before.tail {t : Located Token} (h : Before stop (t :: ts)) : Before stop ts :=
  fun s hs => h s (List.mem_cons_of_mem t hs)

theorem Before.right {us : List (Located Token)} (h : Before stop (ts ++ us)) : Before stop us :=
  fun s hs => h s (List.mem_append_right ts hs)

theorem eq_nil_of_head (hts : Before stop ts) (h : (head stop ts).position = stop) : ts = [] := by
  cases ts with
  | nil => rfl
  | cons t ts => exact absurd h (hts t List.mem_cons_self)

theorem of_current_bind_eq_failed {β : Type} {f : Located Token → Reading β}
    (h : (current >>= f) stop ts = .failed e) :
    ∃ t p, head stop ts = ⟨t, p⟩ ∧ f ⟨t, p⟩ stop ts = .failed e :=
  ⟨_, _, rfl, h⟩

theorem eq_nil_of_refuse {β : Type} {fault : Fault} {t : Token} {p : Position}
    (hts : Before stop ts) (hhead : head stop ts = ⟨t, p⟩)
    (h : (refuse fault p : Reading β) stop ts = .failed e) (he : e.position = stop) : ts = [] := by
  cases h
  apply eq_nil_of_head hts
  rw [hhead]
  exact he

theorem eq_nil_of_expect {wanted : Token} (hts : Before stop ts)
    (h : expect wanted stop ts = .failed e) (he : e.position = stop) : ts = [] := by
  obtain ⟨t, p, hhead, h⟩ := of_current_bind_eq_failed h
  dsimp only at h
  split at h
  · cases h
  · exact eq_nil_of_refuse hts hhead h he

theorem eq_nil_of_name {role : NameRole} (hts : Before stop ts)
    (h : name role stop ts = .failed e) (he : e.position = stop) : ts = [] := by
  rw [name] at h
  split at h
  · cases h
    exact eq_nil_of_head hts he
  · cases h

theorem eq_nil_of_number {limit : Nat} (hts : Before stop ts)
    (h : number limit stop ts = .failed e) (he : e.position = stop) : ts = [] := by
  rw [number_apply] at h
  split at h
  · cases h
  · cases h
    exact eq_nil_of_head hts he

/-- A part and its closing token: the error at the end comes before the token is
read, and then the part can be completed and closed, or behind it. -/
theorem completable_closed {α β : Type} {r : Reading α} {k : α → Reading β}
    {P : α → List (Located Token) → Prop} {close : Token}
    (hclose : close ≠ .endOfInput ∧ close.Spellable)
    (hdone : ∀ a rest, r stop ts = .done a rest → ∃ us, ts = us ++ rest ∧ P a us)
    (hfailed : r stop ts = .failed e → Completable (fun us => ∃ a, P a us) ts)
    (hts : Before stop ts)
    (h : (r >>= fun a => expect close >>= fun _ => k a) stop ts = .failed e)
    (he : e.position = stop) :
    Completable (Closed P close) ts ∨
      ∃ a us q rest, P a us ∧ ts = us ++ ⟨close, q⟩ :: rest ∧ k a stop rest = .failed e := by
  rcases bind_eq_failed_iff.mp h with hread | ⟨a, rest, hread, hbehind⟩
  · left
    refine (hfailed hread).close hclose.2 [] rfl ?_
    rintro zs q ⟨a, ha⟩
    exact ⟨a, zs, q, ha, rfl⟩
  · obtain ⟨us, rfl, ha⟩ := hdone a rest hread
    rcases bind_eq_failed_iff.mp hbehind with hexpect | ⟨_, rest', hexpect, hk⟩
    · left
      obtain rfl := eq_nil_of_expect hts.right hexpect he
      rw [List.append_nil]
      exact completable_singleton hclose.2 fun q => ⟨a, us, q, ha, rfl⟩
    · right
      obtain ⟨q, rfl⟩ := (expect_eq_done_iff hclose.1).mp hexpect
      exact ⟨a, us, q, rest', ha, rfl, hk⟩

/-- If nothing can fail behind the closing token, the error comes before it. -/
theorem completable_closed_last {α β : Type} {r : Reading α} {k : α → β}
    {P : α → List (Located Token) → Prop} {close : Token}
    (hclose : close ≠ .endOfInput ∧ close.Spellable)
    (hdone : ∀ a rest, r stop ts = .done a rest → ∃ us, ts = us ++ rest ∧ P a us)
    (hfailed : r stop ts = .failed e → Completable (fun us => ∃ a, P a us) ts)
    (hts : Before stop ts)
    (h : (r >>= fun a => expect close >>= fun _ => pure (k a)) stop ts = .failed e)
    (he : e.position = stop) : Completable (Closed P close) ts := by
  rcases completable_closed hclose hdone hfailed hts h he with hclosed | ⟨_, _, _, _, _, _, hk⟩
  · exact hclosed
  · cases hk

/-- A name and its closing token. -/
theorem completable_name {β : Type} {role : NameRole} {k : Name → Reading β}
    (hts : Before stop ts)
    (h : (name role >>= fun a => expect .arrow >>= fun _ => k a) stop ts = .failed e)
    (he : e.position = stop) :
    Completable (Closed WritesName .arrow) ts ∨
      ∃ n ns q rest, WritesName n ns ∧ ts = ns ++ ⟨.arrow, q⟩ :: rest ∧
        k n stop rest = .failed e := by
  refine completable_closed ⟨by simp, spellable_delimiter rfl⟩ ?_ ?_ hts h he
  · intro n rest hname
    obtain ⟨ns, hns, hnamed, -⟩ := writesName_of_eq_done hname
    exact ⟨ns, hns, hnamed⟩
  · intro hname
    obtain rfl := eq_nil_of_name hts hname he
    exact completable_singleton spellable_symbol fun q => ⟨_, writesName_symbol "🍉" q⟩

/-! ## Expressions -/

theorem nextToken_of_isPrefix {zs : List (Located Token)} (hne : ts ≠ []) (h : ts <+: zs) :
    nextToken zs = nextToken ts := by
  obtain ⟨vs, rfl⟩ := h
  exact nextToken_append hne vs

theorem Apart.of_isPrefix {g : Bool} {us zs : List (Located Token)} (h : Apart g us ts)
    (hne : ts ≠ []) (hzs : ts <+: zs) : Apart g us zs := by
  rw [Apart, nextToken_of_isPrefix hne hzs]
  exact h

theorem written_boolean (g : Bool) (p : Position) :
    Written (.expression g (.boolean true p)) [⟨.boolean true, p⟩] :=
  .ofChain (.first (.boolean true p))

theorem completable_index {p : Position} {g : Bool} (hts : Before stop ts)
    (h : index stop (⟨.index, p⟩ :: ts) = .failed e) (he : e.position = stop) :
    Completable (IsPhrase (.expression g)) (⟨.index, p⟩ :: ts) := by
  rw [index, current_bind_apply, skip_bind_apply, List.tail_cons] at h
  obtain ⟨t, q, hhead, h⟩ := of_current_bind_eq_failed h
  dsimp only at h
  split at h
  · next digit =>
    rcases bind_eq_failed_iff.mp h with h | ⟨_, _, _, h⟩
    · obtain rfl := eq_nil_of_number hts h he
      cases hhead
    · cases h
  · obtain rfl := eq_nil_of_refuse hts hhead h he
    refine completable_singleton (spellable_digit (by decide : 0 < 10)) fun r => ?_
    have hzero : WritesNumber 0 r [⟨.digit 0, r⟩] := ⟨⟨[0], by simp, rfl, rfl⟩, rfl⟩
    exact ⟨_, .index p hzero (by decide)⟩

/-- Only what stands behind it can make a name fail at the end. -/
theorem name_ne_failed {role : NameRole} {unit : String} {p : Position}
    (hts : Before stop ts) (hhead : head stop ts = ⟨.symbol unit, p⟩)
    (h : name role stop ts = .failed e) (he : e.position = stop) : False := by
  obtain rfl := eq_nil_of_name hts h he
  cases hhead

/-- A list of items and its closing token, if the items can be completed. -/
theorem completable_itemsClosed {bound : Nat} {g : Bool} {close : Token} {β : Type}
    {k : List Node → β} (hclose : isDelimiter close = true) (hts : Before stop ts)
    (hfailed : itemsWithin bound g close stop ts = .failed e →
      Completable (IsPhrase (.items g)) ts)
    (h : (itemsWithin bound g close >>= fun ns => expect close >>= fun _ => pure (k ns)) stop ts =
      .failed e) (he : e.position = stop) :
    Completable (Closed (fun ns => Written (.items g ns)) close) ts := by
  refine completable_closed_last ⟨?_, spellable_delimiter hclose⟩ ?_ hfailed hts h he
  · rintro rfl
    cases hclose
  · exact fun ns rest hns => written_itemsWithin bound g close ts ns rest hns

mutual
theorem completable_operandWithin : ∀ (bound : Nat) (g : Bool) (ts : List (Located Token)),
    Before stop ts → operandWithin bound g stop ts = .failed e → e.position = stop →
    Completable (IsPhrase (.operand g)) ts
  | 0, _, _, _, h, _ => by cases h
  | bound + 1, g, ts, hts, h, he => by
      rw [operandWithin] at h
      obtain ⟨t, p, hhead, hread⟩ := of_current_bind_eq_failed h
      dsimp only at hread
      split at hread
      · next =>
        obtain ⟨ts, rfl⟩ := eq_cons_of_head hhead (by simp)
        have hdone : ∀ n rest, expressionWithin bound true stop ts = .done n rest →
            ∃ us, ts = us ++ rest ∧ Written (.expression true n) us := by
          intro n rest hn
          obtain ⟨us, hus, hwritten, -⟩ := written_expressionWithin bound true ts n rest hn
          exact ⟨us, hus, hwritten⟩
        have hclosed := completable_closed_last ⟨by simp, spellable_delimiter rfl⟩ hdone
          (fun hn => completable_expressionWithin bound true ts hts.tail hn he) hts.tail hread he
        refine hclosed.map [⟨.barrier, p⟩] rfl ?_
        rintro _ - ⟨n, us, q, hn, rfl⟩
        exact ⟨_, .group p q hn⟩
      · next =>
        obtain ⟨ts, rfl⟩ := eq_cons_of_head hhead (by simp)
        rw [skip_bind_apply, List.tail_cons] at hread
        rcases completable_name hts.tail hread he with hnamed | ⟨n, ns, q, rest, hn, rfl, hitems⟩
        · refine hnamed.close (spellable_delimiter (t := .callEnd) rfl) [⟨.callStart, p⟩] rfl ?_
          rintro _ r ⟨n, ns, q, hn, rfl⟩
          refine ⟨.call n [] p, ?_⟩
          rw [List.append_assoc]
          exact .markedCall p q r hn .noItems
        · have hrest : Before stop rest := hts.tail.right.tail
          have hclosed := completable_itemsClosed rfl hrest
            (fun hns => completable_itemsWithin bound g .callEnd rest hrest hns he) hitems he
          refine hclosed.map (⟨.callStart, p⟩ :: (ns ++ [⟨.arrow, q⟩])) (by simp) ?_
          rintro _ - ⟨arguments, us, r, hwritten, rfl⟩
          refine ⟨.call n arguments p, ?_⟩
          rw [List.cons_append, List.append_assoc]
          exact .markedCall p q r hn hwritten
      · next =>
        rcases bind_eq_failed_iff.mp hread with hnumber | ⟨_, _, _, hpure⟩
        · obtain rfl := eq_nil_of_number hts hnumber he
          cases hhead
        · cases hpure
      · cases hread
      · cases hread
      · next =>
        obtain ⟨ts, rfl⟩ := eq_cons_of_head hhead (by simp)
        have hclosed := completable_itemsClosed rfl hts.tail
          (fun hns => completable_itemsWithin bound g .arrayEnd ts hts.tail hns he) hread he
        refine hclosed.map [⟨.arrayStart, p⟩] rfl ?_
        rintro _ - ⟨elements, us, q, hwritten, rfl⟩
        exact ⟨_, .array p q hwritten⟩
      · next =>
        rcases bind_eq_failed_iff.mp hread with hname | ⟨n, rest, hname, hbehind⟩
        · exact absurd he (fun he => name_ne_failed hts hhead hname he)
        · obtain ⟨ns, rfl, hn, -⟩ := writesName_of_eq_done hname
          obtain ⟨t, q, hnext, hbehind⟩ := of_current_bind_eq_failed hbehind
          dsimp only at hbehind
          split at hbehind
          · next heq =>
            obtain ⟨rest, rfl⟩ := eq_cons_of_head (heq ▸ hnext) (by simp)
            have hrest : Before stop rest := hts.right.tail
            have hclosed := completable_itemsClosed rfl hrest
              (fun hns => completable_itemsWithin bound g .callEnd rest hrest hns he) hbehind he
            refine hclosed.map (ns ++ [⟨.callStart, q⟩]) (by simp) ?_
            rintro _ - ⟨arguments, us, r, hwritten, rfl⟩
            refine ⟨.call n arguments n.position, ?_⟩
            rw [List.append_assoc]
            exact .namedCall q r hn hwritten
          · cases hbehind
      · obtain rfl := eq_nil_of_refuse hts hhead hread he
        exact completable_singleton (spellable_boolean true) fun q => ⟨_, .boolean true q⟩
theorem completable_chainWithin : ∀ (bound : Nat) (g : Bool) (left : Node)
    (ts us : List (Located Token)), Before stop ts →
    chainWithin bound g left stop ts = .failed e → e.position = stop →
    Written (.chain g left) us → Completable (IsPhrase (.chain g)) (us ++ ts)
  | 0, _, _, _, _, _, h, _, _ => by cases h
  | bound + 1, g, left, ts, us, hts, h, he, hleft => by
      rw [chainWithin] at h
      obtain ⟨t, p, hhead, hread⟩ := of_current_bind_eq_failed h
      dsimp only at hread
      split at hread
      · next op =>
        obtain ⟨ts, rfl⟩ := eq_cons_of_head hhead (by simp)
        rw [following_bind_apply, skip_bind_apply, List.tail_cons, head_value] at hread
        split at hread
        · next hnot =>
          obtain ⟨rfl, -⟩ := hnot
          have hchain := completable_chainWithin bound g _ ts _ hts.tail hread he
            (.negated p hleft)
          rwa [List.append_assoc] at hchain
        · next hnot =>
          rcases bind_eq_failed_iff.mp hread with hright | ⟨right, rest, hright, hchain⟩
          · have hoperand := completable_operandWithin bound g ts hts.tail hright he
            refine hoperand.map (us ++ [⟨.operator op, p⟩]) (by simp) ?_
            rintro zs hzs ⟨n, hn⟩
            have htakes : op = .not → runsOn g (.operator .not) (nextToken zs) = true := by
              rintro rfl
              -- A `🚫` at the end would have no right operand.
              have hne : ts ≠ [] := by
                rintro rfl
                exact hnot ⟨rfl, rfl⟩
              rw [nextToken_of_isPrefix hne hzs]
              simpa [runsOn] using hnot
            rw [List.append_assoc]
            exact ⟨_, .joined p hleft hn htakes⟩
          · obtain ⟨vs, rfl, hn, -⟩ := written_operandWithin bound g ts right rest hright
            have htakes : op = .not → runsOn g (.operator .not) (nextToken vs) = true := by
              intro hop
              rw [nextToken_append hn.operand_ne_nil] at hnot
              simpa [runsOn, hop] using hnot
            have hlonger := completable_chainWithin bound g _ rest _ hts.tail.right hchain he
              (.joined p hleft hn htakes)
            rwa [List.append_assoc] at hlonger
      · cases hread
theorem completable_expressionWithin : ∀ (bound : Nat) (g : Bool) (ts : List (Located Token)),
    Before stop ts → expressionWithin bound g stop ts = .failed e → e.position = stop →
    Completable (IsPhrase (.expression g)) ts
  | 0, _, _, _, h, _ => by cases h
  | bound + 1, g, ts, hts, h, he => by
      rw [expressionWithin] at h
      obtain ⟨t, p, hhead, hread⟩ := of_current_bind_eq_failed h
      dsimp only at hread
      split at hread
      · next heq =>
        obtain ⟨ts, rfl⟩ := eq_cons_of_head (heq ▸ hhead) (by simp)
        exact completable_index hts.tail hread he
      · rcases bind_eq_failed_iff.mp hread with hoperand | ⟨left, rest, hoperand, hchain⟩
        · refine (completable_operandWithin bound g ts hts hoperand he).map [] rfl ?_
          rintro zs - ⟨n, hn⟩
          exact ⟨n, .ofChain (.first hn)⟩
        · obtain ⟨us, rfl, hleft, -⟩ := written_operandWithin bound g ts left rest hoperand
          have hlonger := completable_chainWithin bound g left rest us hts.right hchain he
            (.first hleft)
          refine hlonger.map [] rfl ?_
          rintro zs - ⟨n, hn⟩
          exact ⟨n, .ofChain hn⟩
theorem completable_itemsWithin : ∀ (bound : Nat) (g : Bool) (close : Token)
    (ts : List (Located Token)), Before stop ts →
    itemsWithin bound g close stop ts = .failed e → e.position = stop →
    Completable (IsPhrase (.items g)) ts
  | 0, _, _, _, _, h, _ => by cases h
  | bound + 1, g, close, ts, hts, h, he => by
      rw [itemsWithin] at h
      obtain ⟨t, p, hhead, hread⟩ := of_current_bind_eq_failed h
      dsimp only at hread
      split at hread
      · cases hread
      · split at hread
        · next heq =>
          obtain ⟨ts, rfl⟩ := eq_cons_of_head (heq ▸ hhead) (by simp)
          have hitems := completable_itemsWithin bound g close ts hts.tail hread he
          refine hitems.map [⟨.comma, p⟩] rfl ?_
          rintro zs - ⟨ns, hns⟩
          exact ⟨ns, .comma p hns⟩
        · rcases bind_eq_failed_iff.mp hread with hitem | ⟨item, rest, hitem, hbehind⟩
          · refine (completable_expressionWithin bound g ts hts hitem he).map [] rfl ?_
            rintro zs - ⟨n, hn⟩
            have hlast := Written.item hn .noItems (apart_nil g zs)
            rw [List.append_nil] at hlast
            exact ⟨[n], hlast⟩
          · obtain ⟨us, rfl, hn, hapart⟩ := written_expressionWithin bound g ts item rest hitem
            rcases bind_eq_failed_iff.mp hbehind with hmore | ⟨_, _, _, hpure⟩
            · -- An empty rest would not have failed.
              have hne : rest ≠ [] := by
                rintro rfl
                cases bound <;> cases hmore
              refine (completable_itemsWithin bound g close rest hts.right hmore he).map us rfl ?_
              rintro zs hzs ⟨ns, hns⟩
              exact ⟨item :: ns, .item hn hns (hapart.of_isPrefix hne hzs)⟩
            · cases hpure
end

/-! ## Statements -/

theorem completable_expression (hts : Before stop ts) (h : expression stop ts = .failed e)
    (he : e.position = stop) : Completable (IsPhrase (.expression false)) ts :=
  completable_expressionWithin _ false ts hts h he

/-- A condition and the token behind it. -/
theorem completable_condition {β : Type} {k : Node → Reading β} (hts : Before stop ts)
    (h : (expression >>= fun n => expect .arrow >>= fun _ => k n) stop ts = .failed e)
    (he : e.position = stop) :
    Completable (Closed (fun n => Written (.expression false n)) .arrow) ts ∨
      ∃ n us q rest, Written (.expression false n) us ∧ ts = us ++ ⟨.arrow, q⟩ :: rest ∧
        k n stop rest = .failed e := by
  refine completable_closed ⟨by simp, spellable_delimiter rfl⟩ ?_ ?_ hts h he
  · intro n rest hn
    obtain ⟨us, hus, hwritten, -⟩ := written_expression hn
    exact ⟨us, hus, hwritten⟩
  · exact fun hn => completable_expression hts hn he

theorem completable_parametersWithin : ∀ (bound : Nat) (ts : List (Located Token)),
    Before stop ts → parametersWithin bound stop ts = .failed e → e.position = stop →
    Completable (IsPhrase .parameters) ts
  | 0, _, _, h, _ => by cases h
  | bound + 1, ts, hts, h, he => by
      rw [parametersWithin] at h
      obtain ⟨t, p, hhead, hread⟩ := of_current_bind_eq_failed h
      dsimp only at hread
      split at hread
      · next heq =>
        obtain ⟨ts, rfl⟩ := eq_cons_of_head (heq ▸ hhead) (by simp)
        rw [skip_bind_apply, List.tail_cons] at hread
        rcases bind_eq_failed_iff.mp hread with hname | ⟨n, rest, hname, hbehind⟩
        · obtain rfl := eq_nil_of_name hts.tail hname he
          refine completable_singleton spellable_symbol fun q => ⟨[⟨"🍉", q⟩], ?_⟩
          have hlast := Written.parameter p (writesName_symbol "🍉" q) .noParameters
          exact hlast
        · obtain ⟨ns, rfl, hn, -⟩ := writesName_of_eq_done hname
          rcases bind_eq_failed_iff.mp hbehind with hmore | ⟨_, _, _, hpure⟩
          · have hlonger := completable_parametersWithin bound rest hts.tail.right hmore he
            refine hlonger.map (⟨.comma, p⟩ :: ns) rfl ?_
            rintro zs - ⟨names, hnames⟩
            exact ⟨n :: names, .parameter p hn hnames⟩
          · cases hpure
      · cases hread

/-- A declaration or an assignment: a mark, a name, an arrow and an expression. -/
theorem completable_binding {mark : Token} {p : Position} {role : NameRole}
    {k : Name → Node → Node} (hts : Before stop ts)
    (hwritten : ∀ (n : Name) (value : Node) (ns us : List (Located Token)) (q : Position),
      WritesName n ns → Written (.expression false value) us →
      Written (.statement (k n value)) (⟨mark, p⟩ :: (ns ++ ⟨.arrow, q⟩ :: us)))
    (h : (name role >>= fun n => expect .arrow >>= fun _ => expression >>= fun value =>
      pure (k n value)) stop ts = .failed e) (he : e.position = stop) :
    Completable (IsPhrase .statement) (⟨mark, p⟩ :: ts) := by
  rcases completable_name hts h he with hnamed | ⟨n, ns, q, rest, hn, rfl, hbehind⟩
  · refine hnamed.close (spellable_boolean true) [⟨mark, p⟩] rfl ?_
    rintro _ r ⟨n, ns, q, hn, rfl⟩
    rw [List.append_assoc]
    exact ⟨_, hwritten n _ ns _ q hn (written_boolean false r)⟩
  · rcases bind_eq_failed_iff.mp hbehind with hvalue | ⟨_, _, _, hpure⟩
    · have hcompletable := completable_expression hts.right.tail hvalue he
      refine hcompletable.map (⟨mark, p⟩ :: (ns ++ [⟨.arrow, q⟩])) (by simp) ?_
      rintro zs - ⟨value, hvalue⟩
      rw [List.cons_append, List.append_assoc]
      exact ⟨_, hwritten n value ns zs q hn hvalue⟩
    · cases hpure

/-- A block and its closing token, if the block can be completed. -/
theorem completable_blockClosed {bound : Nat} {β : Type} {k : List Node → β}
    (hts : Before stop ts)
    (hfailed : blockWithin bound [.stop] stop ts = .failed e → Completable (IsPhrase .block) ts)
    (h : (blockWithin bound [.stop] >>= fun ns => expect .stop >>= fun _ => pure (k ns)) stop ts =
      .failed e) (he : e.position = stop) :
    Completable (Closed (fun ns => Written (.block ns)) .stop) ts := by
  refine completable_closed_last ⟨by simp, spellable_delimiter rfl⟩ ?_ hfailed hts h he
  intro ns rest hns
  obtain ⟨us, hus, hwritten, -⟩ := written_blockWithin bound [.stop] ts ns rest hns
  exact ⟨us, hus, hwritten⟩

section

variable {bound : Nat} {p : Position} (hts : Before stop ts) (he : e.position = stop)
  (hblock : ∀ closing ts, Before stop ts → blockWithin bound closing stop ts = .failed e →
    Completable (IsPhrase .block) ts)
include hts he hblock

/-- A branch, with or without an alternative. -/
theorem completable_branch (h : (do
      let condition ← expression
      expect .arrow
      let consequent ← blockWithin bound [.otherwise, .stop]
      let next ← current
      if next.value = .otherwise then
        skip
        let alternative ← blockWithin bound [.stop]
        expect .stop
        return .branch (.ofNode condition) consequent (some alternative) p
      else
        expect .stop
        return .branch (.ofNode condition) consequent none p : Reading Node) stop ts = .failed e) :
    Completable (IsPhrase .statement) (⟨.branch, p⟩ :: ts) := by
  have hstop : Token.stop.Spellable := spellable_delimiter rfl
  rcases completable_condition hts h he with htested | ⟨n, cs, q, rest, hn, rfl, hbehind⟩
  · refine htested.close hstop [⟨.branch, p⟩] rfl ?_
    rintro _ r ⟨n, cs, q, hn, rfl⟩
    rw [List.append_assoc]
    exact ⟨_, .branch p q r hn .noStatements⟩
  · rcases bind_eq_failed_iff.mp hbehind with hns | ⟨consequent, rest, hns, hnext⟩
    · have hcompletable := hblock _ rest hts.right.tail hns
      refine hcompletable.close hstop (⟨.branch, p⟩ :: (cs ++ [⟨.arrow, q⟩])) (by simp) ?_
      rintro zs r ⟨consequent, hconsequent⟩
      rw [List.cons_append, List.append_assoc]
      exact ⟨_, .branch p q r hn hconsequent⟩
    · obtain ⟨us, rfl, hconsequent, -⟩ := written_blockWithin bound _ _ _ _ hns
      have hrest : Before stop rest := hts.right.tail.right
      obtain ⟨t, r, hhead, hnext⟩ := of_current_bind_eq_failed hnext
      dsimp only at hnext
      split at hnext
      · next heq =>
        obtain ⟨rest, rfl⟩ := eq_cons_of_head (heq ▸ hhead) (by simp)
        have hclosed := completable_blockClosed hrest.tail (hblock _ rest hrest.tail) hnext he
        refine hclosed.map (⟨.branch, p⟩ :: (cs ++ ⟨.arrow, q⟩ :: (us ++ [⟨.otherwise, r⟩])))
          (by simp) ?_
        rintro _ - ⟨alternative, vs, r', halternative, rfl⟩
        simp only [List.cons_append, List.append_assoc, List.nil_append]
        exact ⟨_, .branchElse p q r r' hn hconsequent halternative⟩
      · rcases bind_eq_failed_iff.mp hnext with hexpect | ⟨_, _, _, hpure⟩
        · obtain rfl := eq_nil_of_expect hrest hexpect he
          refine completable_singleton hstop fun r => ?_
          simp only [List.cons_append, List.append_assoc, List.nil_append]
          exact ⟨_, .branch p q r hn hconsequent⟩
        · cases hpure

theorem completable_loop (h : (do
      let condition ← expression
      expect .arrow
      let body ← blockWithin bound [.stop]
      expect .stop
      return .loop (.ofNode condition) body p : Reading Node) stop ts = .failed e) :
    Completable (IsPhrase .statement) (⟨.loop, p⟩ :: ts) := by
  rcases completable_condition hts h he with htested | ⟨n, cs, q, rest, hn, rfl, hbehind⟩
  · refine htested.close (spellable_delimiter (t := .stop) rfl) [⟨.loop, p⟩] rfl ?_
    rintro _ r ⟨n, cs, q, hn, rfl⟩
    rw [List.append_assoc]
    exact ⟨_, .loop p q r hn .noStatements⟩
  · have hrest : Before stop rest := hts.right.tail
    have hclosed := completable_blockClosed hrest (hblock _ rest hrest) hbehind he
    refine hclosed.map (⟨.loop, p⟩ :: (cs ++ [⟨.arrow, q⟩])) (by simp) ?_
    rintro _ - ⟨body, us, r, hbody, rfl⟩
    rw [List.cons_append, List.append_assoc]
    exact ⟨_, .loop p q r hn hbody⟩

theorem completable_definition (h : (do
      let defined ← name .function
      let parameters ← parametersWithin bound
      expect .arrow
      let body ← blockWithin bound [.stop]
      expect .stop
      return .definition defined parameters body p : Reading Node) stop ts = .failed e) :
    Completable (IsPhrase .statement) (⟨.define, p⟩ :: ts) := by
  have hstop : Token.stop.Spellable := spellable_delimiter rfl
  rcases bind_eq_failed_iff.mp h with hname | ⟨n, rest, hname, hbehind⟩
  · obtain rfl := eq_nil_of_name hts hname he
    refine ⟨[.symbol "🍉", .arrow, .stop], ?_, ?_⟩
    · simpa using ⟨spellable_symbol, spellable_delimiter rfl, hstop⟩
    · intro vs hvs
      obtain ⟨q, us, rfl, hus⟩ := located_cons hvs
      obtain ⟨r, ws, rfl, hws⟩ := located_cons hus
      obtain ⟨r', rfl⟩ := located_singleton hws
      exact ⟨_, .definition p r r' (writesName_symbol "🍉" q) .noParameters .noStatements⟩
  · obtain ⟨ns, rfl, hn, -⟩ := writesName_of_eq_done hname
    have hrest : Before stop rest := hts.right
    rcases completable_closed ⟨by simp, spellable_delimiter rfl⟩
      (fun names rest' hnames => written_parametersWithin bound rest names rest' hnames)
      (fun hnames => completable_parametersWithin bound rest hrest hnames he)
      hrest hbehind he with hlisted | ⟨names, ps, q, rest, hnames, rfl, hbody⟩
    · refine hlisted.close hstop (⟨.define, p⟩ :: ns) rfl ?_
      rintro _ r ⟨names, ps, q, hnames, rfl⟩
      rw [List.append_assoc]
      exact ⟨_, .definition p q r hn hnames .noStatements⟩
    · have hbehind : Before stop rest := hrest.right.tail
      have hclosed := completable_blockClosed hbehind (hblock _ rest hbehind) hbody he
      refine hclosed.map (⟨.define, p⟩ :: (ns ++ (ps ++ [⟨.arrow, q⟩]))) (by simp) ?_
      rintro _ - ⟨body, us, r, hbody, rfl⟩
      simp only [List.cons_append, List.append_assoc, List.nil_append]
      exact ⟨_, .definition p q r hn hnames hbody⟩

end

mutual
theorem completable_statementWithin : ∀ (bound : Nat) (ts : List (Located Token)),
    Before stop ts → ts ≠ [] → statementWithin bound stop ts = .failed e → e.position = stop →
    Completable (IsPhrase .statement) ts
  | 0, _, _, _, h, _ => by cases h
  | bound + 1, ts, hts, hne, h, he => by
      have hblock : ∀ (closing : List Token) (ts : List (Located Token)), Before stop ts →
          blockWithin bound closing stop ts = .failed e → Completable (IsPhrase .block) ts :=
        fun closing ts hts hns => completable_blockWithin bound closing ts hts hns he
      rw [statementWithin] at h
      obtain ⟨t, p, hhead, hread⟩ := of_current_bind_eq_failed h
      dsimp only at hread
      split at hread
      · next =>
        obtain ⟨ts, rfl⟩ := eq_cons_of_head hhead (by simp)
        exact completable_binding hts.tail
          (fun n value ns us q hn hvalue => .declaration p q hn hvalue) hread he
      · next =>
        obtain ⟨ts, rfl⟩ := eq_cons_of_head hhead (by simp)
        exact completable_binding hts.tail
          (fun n value ns us q hn hvalue => .assignment p q hn hvalue) hread he
      · next =>
        obtain ⟨ts, rfl⟩ := eq_cons_of_head hhead (by simp)
        exact completable_branch hts.tail he hblock hread
      · next =>
        obtain ⟨ts, rfl⟩ := eq_cons_of_head hhead (by simp)
        exact completable_loop hts.tail he hblock hread
      · next =>
        obtain ⟨ts, rfl⟩ := eq_cons_of_head hhead (by simp)
        exact completable_definition hts.tail he hblock hread
      · next =>
        obtain ⟨ts, rfl⟩ := eq_cons_of_head hhead (by simp)
        rw [skip_bind_apply, List.tail_cons] at hread
        rcases bind_eq_failed_iff.mp hread with hvalue | ⟨_, _, _, hpure⟩
        · refine (completable_expression hts.tail hvalue he).map [⟨.print, p⟩] rfl ?_
          rintro zs - ⟨value, hvalue⟩
          exact ⟨_, .print p hvalue⟩
        · cases hpure
      · next =>
        refine (completable_operandWithin _ false ts hts hread he).map [] rfl ?_
        rintro zs hzs ⟨n, hn⟩
        refine ⟨n, .marked ?_ hn⟩
        rw [List.nil_append, nextToken_of_isPrefix hne hzs, ← head_value stop, hhead]
      iterate 7 · exact absurd (eq_nil_of_refuse hts hhead hread he) hne
      · next hcall _ _ _ _ _ _ _ =>
        refine (completable_expression hts hread he).map [] rfl ?_
        rintro zs hzs ⟨n, hn⟩
        refine ⟨n, .plain ?_ hn⟩
        rwa [List.nil_append, nextToken_of_isPrefix hne hzs, ← head_value stop, hhead]
theorem completable_blockWithin : ∀ (bound : Nat) (closing : List Token)
    (ts : List (Located Token)), Before stop ts →
    blockWithin bound closing stop ts = .failed e → e.position = stop →
    Completable (IsPhrase .block) ts
  | 0, _, _, _, h, _ => by cases h
  | bound + 1, closing, ts, hts, h, he => by
      rw [blockWithin] at h
      obtain ⟨t, p, hhead, hread⟩ := of_current_bind_eq_failed h
      dsimp only at hread
      split at hread
      · cases hread
      · next hopen =>
        have hne : ts ≠ [] := by
          rintro rfl
          cases hhead
          exact hopen (.inl rfl)
        rcases bind_eq_failed_iff.mp hread with hstatement | ⟨n, rest, hstatement, hbehind⟩
        · refine (completable_statementWithin bound ts hts hne hstatement he).map [] rfl ?_
          rintro zs - ⟨n, hn⟩
          have hlast := Written.statement hn .noStatements (apart_nil false zs)
          rw [List.append_nil] at hlast
          exact ⟨[n], hlast⟩
        · obtain ⟨us, rfl, hn, hapart⟩ := written_statementWithin bound ts n rest hstatement
          rcases bind_eq_failed_iff.mp hbehind with hmore | ⟨_, _, _, hpure⟩
          · have hne : rest ≠ [] := by
              rintro rfl
              cases bound <;> cases hmore
            have hlonger := completable_blockWithin bound closing rest hts.right hmore he
            refine hlonger.map us rfl ?_
            rintro zs hzs ⟨ns, hns⟩
            exact ⟨n :: ns, .statement hn hns (hapart.of_isPrefix hne hzs)⟩
          · cases hpure
end

end Grammar

/-! ## Texts -/

namespace Program

open Grammar

variable {a : String} {e : SyntaxError}

theorem statements_of_ofSource_eq_error (h : ofSource a = .error e) :
    Grammar.statements (tokenize a).stop (tokenize a).items = .failed e := by
  rw [ofSource, ofTokens] at h
  split at h
  · cases h
  · next hsettled =>
    cases h
    exact Outcome.settle_eq_error_iff.mp hsettled

/-- **Viable prefixes.** A text that is refused, and does not end inside a
quotation, can be continued to a program just when the error is reported at its
end. -/
theorem exists_continuation_iff (hopen : ¬EndsInQuotation a) (h : ofSource a = .error e) :
    (∃ b p, ofSource (a ++ " " ++ b) = .ok p) ↔ e.position = (tokenize a).stop := by
  have hblank : isBlank ' ' = true := by decide
  have hfailed := statements_of_ofSource_eq_error h
  constructor
  · rintro ⟨b, p, hp⟩
    by_contra he
    have hitems := tokenize_append (b := b) hblank hopen
    have hlonger := statements_append_eq_failed hfailed he
      (⟨b.toList, (tokenize a).stop.advance ' '⟩ : Cursor).tokens.items
      (tokenize (a ++ " " ++ b)).stop
    obtain ⟨rest, hread⟩ :=
      (statements_eq_done_iff (tokenize_ne_endOfInput _)).mpr (ofSource_eq_ok_iff.mp hp).1
    rw [← hitems] at hlonger
    exact absurd (hread.symm.trans hlonger) (by simp)
  · intro he
    have hbefore : Before (tokenize a).stop (tokenize a).items :=
      fun t ht => (position_lt_stop_tokenize a t ht).ne
    obtain ⟨cs, hcs, hwritten⟩ := completable_blockWithin _ _ _ hbefore hfailed he
    have hspelled := Cursor.tokens_of_spell
      (k := ⟨(spell cs).toList, (tokenize a).stop.advance ' '⟩) hcs rfl
    obtain ⟨ns, hns⟩ := hwritten _ hspelled
    rw [← tokenize_append hblank hopen] at hns
    exact ⟨spell cs, ⟨ns, _⟩, ofSource_eq_ok_iff.mpr ⟨hns, rfl⟩⟩

/-- A loop that lacks its end can be finished; a declaration without a name cannot. -/
theorem exists_continuation_loop :
    (∃ b p, ofSource ("🔄 ✅ 👉 📋 ⏹ 📋" ++ " " ++ b) = .ok p) ∧
      ¬∃ b p, ofSource ("📝 👉" ++ " " ++ b) = .ok p := by
  have hloop : tokenize "🔄 ✅ 👉 📋 ⏹ 📋" =
      ⟨[⟨.loop, ⟨1, 1⟩⟩, ⟨.boolean true, ⟨1, 3⟩⟩, ⟨.arrow, ⟨1, 5⟩⟩, ⟨.text "⏹", ⟨1, 7⟩⟩],
        ⟨1, 12⟩⟩ := by
    decide +kernel
  have hdeclaration : tokenize "📝 👉" =
      ⟨[⟨.declare, ⟨1, 1⟩⟩, ⟨.arrow, ⟨1, 3⟩⟩], ⟨1, 4⟩⟩ := by
    decide +kernel
  have hunfinished : ofSource "🔄 ✅ 👉 📋 ⏹ 📋" =
      .error ((Fault.expected .stop .endOfInput).report ⟨1, 12⟩) := by
    rw [ofSource, hloop]
    rfl
  have hrefused : ofSource "📝 👉" =
      .error ((Fault.expectedName .declared .arrow).report ⟨1, 3⟩) := by
    rw [ofSource, hdeclaration]
    rfl
  constructor
  · apply (exists_continuation_iff (by decide +kernel) hunfinished).mpr
    rw [hloop]
    rfl
  · rw [exists_continuation_iff (by decide +kernel) hrefused, hdeclaration]
    decide

end Program

end Pictoscript
