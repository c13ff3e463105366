import Mathlib.Tactic.ByContra
import Pictoscript.Pictograph

/-! # What symbols are made of

A unit is well formed if it is a sequence of items, each of them a pictograph, a component
or a keycap sequence, and not all of them components. A keycap sequence is a digit, `#` or
`*` with a combining keycap of its own, before which a presentation selector may stand.

The test for symbols looks at one character at a time, and asks of the whole unit only
whether there is a keycap in it. It accepts every unit that is well formed. The others
that it accepts are of two kinds, and `isSymbol_iff_wellFormed_or` lists them exactly:
components alone, if there is a keycap or a skin tone among them, and units with a digit,
`#` or `*` that has no keycap of its own but gets by with one elsewhere.
-/

namespace Pictoscript

namespace Pictograph

/-! ## Items -/

/-- One thing that is seen as a whole, or a component between such things. -/
inductive Item where
  | pictograph (c : Char) (h : isPictographic c = true ∧ isComponent c = false)
  | component (c : Char) (h : isComponent c = true)
  /-- A character with a keycap, and with a presentation selector or without. -/
  | keycap (base : Char) (selected : Bool) (h : isKeycapBase base = true)

namespace Item

def chars : Item → List Char
  | .pictograph c _ => [c]
  | .component c _ => [c]
  | .keycap base true _ => [base, selector, Pictograph.keycap]
  | .keycap base false _ => [base, Pictograph.keycap]

/-- A component modifies or joins other items and is nothing by itself. -/
def isComponent : Item → Bool
  | .component .. => true
  | _ => false

end Item

/-- The unit is a sequence of items that are not all components. -/
def WellFormed (unit : List Char) : Prop :=
  ∃ items : List Item, unit = items.flatMap Item.chars ∧ ∃ i ∈ items, i.isComponent = false

/-! ## Characters -/

theorem toNat_lt_of_isKeycapBase {c : Char} (h : isKeycapBase c = true) : c.toNat < 128 := by
  simp only [isKeycapBase, Char.isDigit, Bool.or_eq_true, Bool.and_eq_true, decide_eq_true_eq,
    beq_iff_eq] at h
  rcases h with (⟨_, hle⟩ | rfl) | rfl
  · have hle' : c.toNat ≤ 57 := hle
    omega
  · decide
  · decide

/-- Pictographs and components lie beyond the characters that keycaps enclose. -/
theorem isKeycapBase_eq_false {c : Char} (h : isPictographic c = true ∨ isComponent c = true) :
    isKeycapBase c = false := by
  have hle : 128 ≤ c.toNat := by
    rcases h with h | h <;> exact le_toNat_of_inRanges (by decide) h
  rw [← Bool.not_eq_true]
  intro hbase
  have hlt := toNat_lt_of_isKeycapBase hbase
  omega

/-- A character that has a place in some item. -/
def isPart (c : Char) : Bool := isPictographic c || isComponent c || isKeycapBase c

/-- A character whose item is no component. -/
def isBody (c : Char) : Bool := (isPictographic c && !isComponent c) || isKeycapBase c

theorem isPart_iff {c : Char} :
    isPart c = true ↔ (isPictographic c = true ∨ isComponent c = true) ∨ isKeycapBase c = true := by
  simp only [isPart, Bool.or_eq_true]

theorem isBody_eq_not_isComponent {c : Char} (h : isPart c = true) :
    isBody c = !isComponent c := by
  cases hcomponent : isComponent c with
  | false => simpa [isBody, isPart, hcomponent] using h
  | true => simp [isBody, hcomponent, isKeycapBase_eq_false (.inr hcomponent)]

/-! ## Keycaps -/

/-- Does a keycap come next, with a selector before it or without? -/
def opensKeycap : List Char → Bool
  | c :: cs => c == keycap || (c == selector && cs.head? == some keycap)
  | [] => false

/-- Has each digit, `#` and `*` a keycap of its own? -/
def allEnclosed : List Char → Bool
  | [] => true
  | c :: cs => (!isKeycapBase c || opensKeycap cs) && allEnclosed cs

theorem opensKeycap_iff {cs : List Char} :
    opensKeycap cs = true ↔ ∃ rest, cs = keycap :: rest ∨ cs = selector :: keycap :: rest := by
  cases cs with
  | nil => simp [opensKeycap]
  | cons c cs =>
      cases cs with
      | nil => simp [opensKeycap]
      | cons d ds =>
          simp only [opensKeycap, List.head?_cons, Bool.or_eq_true, Bool.and_eq_true, beq_iff_eq,
            Option.some.injEq, List.cons.injEq]
          constructor
          · rintro (rfl | ⟨rfl, rfl⟩)
            · exact ⟨_, .inl ⟨rfl, rfl⟩⟩
            · exact ⟨_, .inr ⟨rfl, rfl, rfl⟩⟩
          · rintro ⟨rest, ⟨rfl, -⟩ | ⟨rfl, rfl, -⟩⟩
            · exact .inl rfl
            · exact .inr ⟨rfl, rfl⟩

theorem keycap_mem_of_opensKeycap {cs : List Char} (h : opensKeycap cs = true) : keycap ∈ cs := by
  obtain ⟨rest, rfl | rfl⟩ := opensKeycap_iff.mp h <;> simp

/-- Somewhere a digit, `#` or `*` stands without a keycap of its own. -/
def HasStrayBase (unit : List Char) : Prop :=
  ∃ before base behind, unit = before ++ base :: behind ∧ isKeycapBase base = true ∧
    opensKeycap behind = false

theorem allEnclosed_iff {unit : List Char} : allEnclosed unit = true ↔ ¬HasStrayBase unit := by
  induction unit with
  | nil => simp [allEnclosed, HasStrayBase]
  | cons c cs ih =>
      rw [allEnclosed, Bool.and_eq_true, ih]
      constructor
      · rintro ⟨hc, hcs⟩ ⟨before, base, behind, hsplit, hbase, hbehind⟩
        cases before with
        | nil =>
            cases hsplit
            simp [hbase, hbehind] at hc
        | cons d before =>
            cases hsplit
            exact hcs ⟨before, base, behind, rfl, hbase, hbehind⟩
      · intro h
        refine ⟨?_, ?_⟩
        · by_contra hc
          simp only [Bool.or_eq_true, Bool.not_eq_true, not_or, Bool.not_eq_true',
            Bool.not_eq_false] at hc
          exact h ⟨[], c, cs, rfl, hc⟩
        · rintro ⟨before, base, behind, rfl, hbase⟩
          exact h ⟨c :: before, base, behind, rfl, hbase⟩

/-- In a unit where each base is enclosed, a base brings a keycap with it. -/
theorem keycap_mem_of_allEnclosed {unit : List Char} {c : Char} (h : allEnclosed unit = true)
    (hc : c ∈ unit) (hbase : isKeycapBase c = true) : keycap ∈ unit := by
  obtain ⟨before, behind, rfl⟩ := List.append_of_mem hc
  by_contra hkeycap
  refine allEnclosed_iff.mp h ⟨before, c, behind, rfl, hbase, ?_⟩
  rw [← Bool.not_eq_true]
  intro hopens
  exact hkeycap (by simp [keycap_mem_of_opensKeycap hopens])

/-! ## Well-formed units by their characters -/

namespace Item

theorem isPart_of_mem {i : Item} {c : Char} (hc : c ∈ i.chars) : isPart c = true := by
  have hkeycap : isPart Pictograph.keycap = true := by decide
  have hselector : isPart selector = true := by decide
  cases i with
  | pictograph d h =>
      obtain rfl := List.mem_singleton.mp hc
      simp [isPart, h.1]
  | component d h =>
      obtain rfl := List.mem_singleton.mp hc
      simp [isPart, h]
  | keycap base selected h =>
      have hbase : isPart base = true := by simp [isPart, h]
      have hmem : c = base ∨ c = selector ∨ c = Pictograph.keycap := by
        cases selected <;> simp only [chars, List.mem_cons, List.not_mem_nil] at hc <;> grind
      rcases hmem with rfl | rfl | rfl
      · exact hbase
      · exact hselector
      · exact hkeycap

/-- An item encloses its own base and leaves no other behind. -/
theorem allEnclosed_append (i : Item) (cs : List Char) :
    allEnclosed (i.chars ++ cs) = allEnclosed cs := by
  have hkeycap : isKeycapBase Pictograph.keycap = false := by decide
  have hselector : isKeycapBase selector = false := by decide
  cases i with
  | pictograph c h => simp [chars, allEnclosed, isKeycapBase_eq_false (.inl h.1)]
  | component c h => simp [chars, allEnclosed, isKeycapBase_eq_false (.inr h)]
  | keycap base selected h =>
      cases selected <;> simp [chars, allEnclosed, opensKeycap, hkeycap, hselector]

theorem exists_isBody {i : Item} (h : i.isComponent = false) : ∃ c ∈ i.chars, isBody c = true := by
  cases i with
  | pictograph c hc => exact ⟨c, by simp [chars], by simp [isBody, hc]⟩
  | component c hc => cases h
  | keycap base selected hbase =>
      exact ⟨base, by cases selected <;> simp [chars], by simp [isBody, hbase]⟩

theorem isComponent_eq_false {i : Item} {c : Char} (hc : c ∈ i.chars) (hbody : isBody c = true) :
    i.isComponent = false := by
  cases i with
  | component d h =>
      have hpart := isPart_of_mem hc
      obtain rfl := List.mem_singleton.mp hc
      simp [isBody_eq_not_isComponent hpart, h] at hbody
  | pictograph | keycap => rfl

end Item

theorem allEnclosed_flatMap (items : List Item) :
    allEnclosed (items.flatMap Item.chars) = true := by
  induction items with
  | nil => rfl
  | cons i items ih => rw [List.flatMap_cons, Item.allEnclosed_append, ih]

/-- A unit whose bases are enclosed is a sequence of items. -/
theorem exists_items {unit : List Char} (hparts : ∀ c ∈ unit, isPart c = true)
    (henclosed : allEnclosed unit = true) :
    ∃ items : List Item, unit = items.flatMap Item.chars := by
  -- On the length, as a keycap sequence takes up to three characters at once.
  induction hlength : unit.length using Nat.strongRecOn generalizing unit with
  | ind length ih =>
      have hcons : ∀ (i : Item) (rest : List Char), unit = i.chars ++ rest →
          rest.length < length → ∃ items : List Item, unit = items.flatMap Item.chars := by
        rintro i rest rfl hlt
        rw [Item.allEnclosed_append] at henclosed
        obtain ⟨items, rfl⟩ :=
          ih rest.length hlt (fun c hc => hparts c (List.mem_append_right _ hc)) henclosed rfl
        exact ⟨i :: items, rfl⟩
      cases unit with
      | nil => exact ⟨[], rfl⟩
      | cons c cs =>
          have hlt : cs.length < length := by rw [← hlength]; exact Nat.lt_succ_self _
          by_cases hbase : isKeycapBase c = true
          · have hopens : opensKeycap cs = true := by
              simp only [allEnclosed, hbase, Bool.not_true, Bool.false_or, Bool.and_eq_true]
                at henclosed
              exact henclosed.1
            obtain ⟨rest, rfl | rfl⟩ := opensKeycap_iff.mp hopens <;>
              simp only [List.length_cons] at hlt
            · exact hcons (.keycap c false hbase) rest rfl (by omega)
            · exact hcons (.keycap c true hbase) rest rfl (by omega)
          · by_cases hcomponent : isComponent c = true
            · exact hcons (.component c hcomponent) cs rfl hlt
            · have hpart := hparts c (by simp)
              have hpictograph : isPictographic c = true ∧ isComponent c = false := by
                simpa [isPart, hbase, hcomponent] using hpart
              exact hcons (.pictograph c hpictograph) cs rfl hlt

theorem wellFormed_iff {unit : List Char} :
    WellFormed unit ↔ (∀ c ∈ unit, isPart c = true) ∧ allEnclosed unit = true ∧
      ∃ c ∈ unit, isBody c = true := by
  constructor
  · rintro ⟨items, rfl, i, hi, hcomponent⟩
    refine ⟨?_, allEnclosed_flatMap items, ?_⟩
    · intro c hc
      obtain ⟨j, -, hj⟩ := List.mem_flatMap.mp hc
      exact Item.isPart_of_mem hj
    · obtain ⟨c, hc, hbody⟩ := Item.exists_isBody hcomponent
      exact ⟨c, List.mem_flatMap.mpr ⟨i, hi, hc⟩, hbody⟩
  · rintro ⟨hparts, henclosed, c, hc, hbody⟩
    obtain ⟨items, rfl⟩ := exists_items hparts henclosed
    obtain ⟨i, hi, hmem⟩ := List.mem_flatMap.mp hc
    exact ⟨items, rfl, i, hi, Item.isComponent_eq_false hmem hbody⟩

instance (unit : List Char) : Decidable (WellFormed unit) :=
  decidable_of_iff ((unit.all isPart && allEnclosed unit && unit.any isBody) = true)
    (by simp only [wellFormed_iff, Bool.and_eq_true, List.all_eq_true, List.any_eq_true, and_assoc])

example : WellFormed ['👩', '\u200D', '💻'] := by decide
example : WellFormed ['#', selector, keycap] := by decide

/-! ## The test for symbols -/

theorem isSymbol_iff {unit : List Char} :
    isSymbol unit = true ↔ (∀ c ∈ unit, isPart c = true) ∧
      (∀ c ∈ unit, isKeycapBase c = true → keycap ∈ unit) ∧
      ((∃ c ∈ unit, isPictographic c = true) ∨ keycap ∈ unit) := by
  simp only [isSymbol, Bool.and_eq_true, Bool.or_eq_true, List.all_eq_true, List.any_eq_true,
    List.contains_iff_mem, isPart_iff]
  constructor
  · rintro ⟨hall, hsome⟩
    refine ⟨fun c hc => (hall c hc).imp_right And.right, fun c hc hbase => ?_, hsome⟩
    rcases hall c hc with hother | ⟨hkeycap, -⟩
    · rw [isKeycapBase_eq_false hother] at hbase
      cases hbase
    · exact hkeycap
  · rintro ⟨hparts, hbases, hsome⟩
    exact ⟨fun c hc => (hparts c hc).imp_right fun hbase => ⟨hbases c hc hbase, hbase⟩, hsome⟩

/-- The units that are taken for symbols and are not well formed. -/
inductive Misread (unit : List Char) : Prop where
  /-- Nothing but components, with a keycap or a skin tone among them. -/
  | components (hall : ∀ c ∈ unit, isComponent c = true)
      (hsome : ∃ c ∈ unit, c = keycap ∨ isPictographic c = true)
  /-- A digit, `#` or `*` without a keycap of its own, let in by a keycap elsewhere. -/
  | stray (hparts : ∀ c ∈ unit, isPart c = true) (hkeycap : keycap ∈ unit)
      (hstray : HasStrayBase unit)

theorem isSymbol_of_wellFormed {unit : List Char} (h : WellFormed unit) :
    isSymbol unit = true := by
  obtain ⟨hparts, henclosed, c, hc, hbody⟩ := wellFormed_iff.mp h
  refine isSymbol_iff.mpr ⟨hparts, fun d hd => keycap_mem_of_allEnclosed henclosed hd, ?_⟩
  simp only [isBody, Bool.or_eq_true, Bool.and_eq_true] at hbody
  rcases hbody with ⟨hpictographic, -⟩ | hbase
  · exact .inl ⟨c, hc, hpictographic⟩
  · exact .inr (keycap_mem_of_allEnclosed henclosed hc hbase)

namespace Misread

theorem isSymbol {unit : List Char} (h : Misread unit) : Pictograph.isSymbol unit = true := by
  rw [isSymbol_iff]
  cases h with
  | components hall hsome =>
      refine ⟨fun c hc => isPart_iff.mpr (.inl (.inr (hall c hc))), fun c hc hbase => ?_, ?_⟩
      · rw [isKeycapBase_eq_false (.inr (hall c hc))] at hbase
        cases hbase
      · obtain ⟨c, hc, rfl | hpictographic⟩ := hsome
        · exact .inr hc
        · exact .inl ⟨c, hc, hpictographic⟩
  | stray hparts hkeycap => exact ⟨hparts, fun _ _ _ => hkeycap, .inr hkeycap⟩

theorem not_wellFormed {unit : List Char} (h : Misread unit) : ¬WellFormed unit := by
  rw [wellFormed_iff]
  rintro ⟨hparts, henclosed, c, hc, hbody⟩
  cases h with
  | components hall => simp [isBody_eq_not_isComponent (hparts c hc), hall c hc] at hbody
  | stray _ _ hstray => exact allEnclosed_iff.mp henclosed hstray

end Misread

theorem wellFormed_or_misread {unit : List Char} (h : isSymbol unit = true) :
    WellFormed unit ∨ Misread unit := by
  obtain ⟨hparts, hbases, hsome⟩ := isSymbol_iff.mp h
  by_cases hstray : HasStrayBase unit
  · have hkeycap : keycap ∈ unit := by
      obtain ⟨before, base, behind, rfl, hbase, -⟩ := hstray
      exact hbases base (by simp) hbase
    exact .inr (.stray hparts hkeycap hstray)
  by_cases hbody : ∃ c ∈ unit, isBody c = true
  · exact .inl (wellFormed_iff.mpr ⟨hparts, allEnclosed_iff.mpr hstray, hbody⟩)
  -- Without a body there are components only, one of which made the unit a symbol.
  have hcomponents : ∀ c ∈ unit, isComponent c = true := by
    intro c hc
    by_contra hcomponent
    exact hbody ⟨c, hc, by simp [isBody_eq_not_isComponent (hparts c hc), hcomponent]⟩
  refine .inr (.components hcomponents ?_)
  rcases hsome with ⟨c, hc, hpictographic⟩ | hkeycap
  · exact ⟨c, hc, .inr hpictographic⟩
  · exact ⟨keycap, hkeycap, .inl rfl⟩

/-- **A unit is taken for a symbol exactly if it is well formed or misread, and never is it
both.** -/
theorem isSymbol_iff_wellFormed_or (unit : List Char) :
    (isSymbol unit = true ↔ WellFormed unit ∨ Misread unit) ∧
      ¬(WellFormed unit ∧ Misread unit) := by
  refine ⟨⟨wellFormed_or_misread, ?_⟩, fun ⟨hwell, hmisread⟩ => hmisread.not_wellFormed hwell⟩
  rintro (hwell | hmisread)
  · exact isSymbol_of_wellFormed hwell
  · exact hmisread.isSymbol

/-- A keycap alone, a digit with the keycap behind a pictograph, and a skin tone alone are
taken for symbols, and none of them is well formed. -/
theorem isSymbol_misread :
    (isSymbol [keycap] = true ∧ ¬WellFormed [keycap]) ∧
      (isSymbol ['1', '🍉', keycap] = true ∧ ¬WellFormed ['1', '🍉', keycap]) ∧
      (isSymbol ['🏽'] = true ∧ ¬WellFormed ['🏽']) := by
  decide

end Pictograph

end Pictoscript
