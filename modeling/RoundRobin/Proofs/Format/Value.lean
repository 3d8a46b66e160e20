import Mathlib
import RoundRobin.Rule.Entry

/-! The written forms of values: numbers, ids, games, and lists of them between semicolons, all with
white space around them. A value is read from each of its written forms, and from no other text. -/

namespace RoundRobin

namespace Text

/-- White space only. -/
def Blank (cs : List Char) : Prop := ∀ c ∈ cs, isBlank c = true

/-- One text is another one with white space before and behind it. -/
def StandsIn (core text : List Char) : Prop :=
  ∃ lead tail, Blank lead ∧ Blank tail ∧ text = lead ++ core ++ tail

/-- At least one ASCII digit, with the value of the digits in decimal notation. -/
structure Digits (value : Nat) (cs : List Char) : Prop where
  ne_nil : cs ≠ []
  digits : ∀ c ∈ cs, c.isDigit = true
  value_eq : Nat.ofDigitChars 10 cs 0 = value

/-- Digits, with or without a plus before them. -/
inductive Unsigned (value : Nat) : List Char → Prop
  | plain {cs : List Char} : Digits value cs → Unsigned value cs
  | plus {cs : List Char} : Digits value cs → Unsigned value ('+' :: cs)

/-- Digits, with or without a sign before them. -/
inductive Signed : Int → List Char → Prop
  | unsigned {value : Nat} {cs : List Char} : Unsigned value cs → Signed value cs
  | minus {value : Nat} {cs : List Char} : Digits value cs → Signed (-value) ('-' :: cs)

section Trim

variable {core text lead tail cs : List Char}

theorem StandsIn.refl (text : List Char) : StandsIn text text :=
  ⟨[], [], by simp [Blank], by simp [Blank], by simp⟩

theorem StandsIn.trans {inner : List Char} (h1 : StandsIn inner core) (h2 : StandsIn core text) :
    StandsIn inner text := by
  obtain ⟨lead1, tail1, hlead1, htail1, rfl⟩ := h1
  obtain ⟨lead2, tail2, hlead2, htail2, rfl⟩ := h2
  refine ⟨lead2 ++ lead1, tail1 ++ tail2, ?_, ?_, by simp⟩
  · exact List.forall_mem_append.mpr ⟨hlead2, hlead1⟩
  · exact List.forall_mem_append.mpr ⟨htail1, htail2⟩

theorem standsIn_trimStart (cs : List Char) : StandsIn (trimStart cs) cs := by
  refine ⟨cs.takeWhile isBlank, [], fun c hc => ?_, by simp [Blank], ?_⟩
  · exact List.mem_takeWhile_imp hc
  · simp [trimStart, List.takeWhile_append_dropWhile]

theorem standsIn_trimEnd (cs : List Char) : StandsIn (trimEnd cs) cs := by
  refine ⟨[], (cs.reverse.takeWhile isBlank).reverse, by simp [Blank], fun c hc => ?_, ?_⟩
  · exact List.mem_takeWhile_imp (List.mem_reverse.mp hc)
  · rw [trimEnd, List.nil_append, ← List.reverse_append, List.takeWhile_append_dropWhile,
      List.reverse_reverse]

theorem standsIn_trim (cs : List Char) : StandsIn (trim cs) cs :=
  (standsIn_trimEnd (trimStart cs)).trans (standsIn_trimStart cs)

theorem trimEnd_append_blank (h : Blank tail) : trimEnd (cs ++ tail) = trimEnd cs := by
  have hreverse : ∀ c ∈ tail.reverse, isBlank c = true := fun c hc => h c (List.mem_reverse.mp hc)
  rw [trimEnd, List.reverse_append, List.dropWhile_append_of_pos hreverse, trimEnd]

theorem trim_append_blank (h : Blank tail) : trim (cs ++ tail) = trim cs := by
  rw [trim, trimStart, List.dropWhile_append]
  split
  · rename_i hcs
    have hempty : cs.dropWhile isBlank = [] := List.isEmpty_iff.mp hcs
    have htail : tail.dropWhile isBlank = [] := List.dropWhile_eq_nil_iff.mpr h
    rw [htail, trim, trimStart, hempty]
  · exact trimEnd_append_blank h

theorem trim_blank_append (h : Blank lead) : trim (lead ++ cs) = trim cs := by
  rw [trim, trimStart, List.dropWhile_append_of_pos h]
  rfl

/-- White space around a text is trimmed with the rest. -/
theorem StandsIn.trim_eq (h : StandsIn core text) : trim text = trim core := by
  obtain ⟨lead, tail, hlead, htail, rfl⟩ := h
  rw [trim_append_blank htail, trim_blank_append hlead]

theorem trim_eq_nil_iff : trim text = [] ↔ Blank text := by
  constructor
  · intro h
    obtain ⟨lead, tail, hlead, htail, htext⟩ := standsIn_trim text
    rw [h, List.append_nil] at htext
    exact htext ▸ List.forall_mem_append.mpr ⟨hlead, htail⟩
  · intro h
    have hblank : trim ([] ++ text) = trim [] := trim_append_blank h
    simpa [trim, trimStart, trimEnd] using hblank

/-- A character that is not blank ends what is trimmed before and behind it. -/
theorem trim_append_cons {c : Char} (hc : isBlank c = false) (a b : List Char) :
    trim (a ++ c :: b) = trimStart a ++ c :: trimEnd b := by
  have hstart : trimStart (a ++ c :: b) = trimStart a ++ c :: b := by
    rw [trimStart, List.dropWhile_append]
    split
    · rename_i ha
      rw [trimStart, List.isEmpty_iff.mp ha]
      simp [hc]
    · rfl
  have hend : ∀ cs, trimEnd (cs ++ c :: b) = cs ++ c :: trimEnd b := by
    intro cs
    rw [trimEnd, List.reverse_append, List.reverse_cons, List.append_assoc, List.dropWhile_append]
    split
    · rename_i hb
      rw [trimEnd, List.isEmpty_iff.mp hb]
      simp [hc]
    · simp [trimEnd]
  rw [trim, hstart, hend]

theorem isBlank_of_isDigit {c : Char} (h : c.isDigit = true) : isBlank c = false := by
  have hrange : 48 ≤ c.toNat ∧ c.toNat ≤ 57 := by
    simpa [Char.isDigit, UInt32.le_iff_toNat_le] using h
  simp [isBlank, blankRanges]
  omega

end Trim

section Numerals

variable {cs text : List Char}

theorem digits?_eq_some_iff {value : Nat} : digits? cs = some value ↔ Digits value cs := by
  unfold digits?
  split
  · rename_i h
    rw [List.all_eq_true] at h
    exact ⟨fun heq => ⟨h.1, h.2, Option.some.inj heq⟩, fun hd => congrArg some hd.value_eq⟩
  · rename_i h
    rw [List.all_eq_true] at h
    exact ⟨nofun, fun hd => absurd ⟨hd.ne_nil, hd.digits⟩ h⟩

theorem Digits.head_ne {value : Nat} {c : Char} (hc : c.isDigit = false) :
    ¬ Digits value (c :: cs) := by
  intro h
  have := h.digits c (.head _)
  simp [hc] at this

theorem unsigned?_eq_some_iff {value : Nat} : unsigned? cs = some value ↔ Unsigned value cs := by
  unfold unsigned?
  split
  · rename_i cs
    rw [digits?_eq_some_iff]
    refine ⟨.plus, fun h => ?_⟩
    cases h with
    | plain h => exact absurd h (Digits.head_ne rfl)
    | plus h => exact h
  · rename_i cs hplus
    rw [digits?_eq_some_iff]
    refine ⟨.plain, fun h => ?_⟩
    cases h with
    | plain h => exact h
    | plus h => exact absurd rfl (hplus _)

theorem Unsigned.head_ne {value : Nat} : ¬ Unsigned value ('-' :: cs) := by
  intro h
  cases h with
  | plain h => exact Digits.head_ne rfl h

theorem signed?_eq_some_iff {value : Int} : signed? cs = some value ↔ Signed value cs := by
  unfold signed?
  split
  · rename_i cs
    simp only [Option.map_eq_some_iff, digits?_eq_some_iff]
    constructor
    · rintro ⟨n, hn, rfl⟩
      exact .minus hn
    · intro h
      cases h with
      | unsigned h => exact absurd h Unsigned.head_ne
      | minus h => exact ⟨_, h, rfl⟩
  · rename_i cs hminus
    simp only [Option.map_eq_some_iff, unsigned?_eq_some_iff]
    constructor
    · rintro ⟨n, hn, rfl⟩
      exact .unsigned hn
    · intro h
      cases h with
      | unsigned h => exact ⟨_, h, rfl⟩
      | minus h => exact absurd rfl (hminus _)

theorem natural?_eq_some_iff {limit value : Nat} :
    natural? limit cs = some value ↔ value < limit ∧ Unsigned value cs := by
  simp [natural?, Option.filter_eq_some_iff, unsigned?_eq_some_iff, and_comm]

theorem integer?_eq_some_iff {limit : Nat} {value : Int} :
    integer? limit cs = some value ↔ (-(limit : Int) ≤ value ∧ value < limit) ∧
      Signed value cs := by
  simp [integer?, Option.filter_eq_some_iff, signed?_eq_some_iff, and_comm]

theorem Unsigned.mem {value : Nat} (h : Unsigned value cs) :
    ∀ c ∈ cs, c.isDigit = true ∨ c = '+' := by
  cases h with
  | plain h => exact fun c hc => .inl (h.digits c hc)
  | plus h => exact List.forall_mem_cons.mpr ⟨.inr rfl, fun c hc => .inl (h.digits c hc)⟩

theorem Signed.mem {value : Int} (h : Signed value cs) :
    ∀ c ∈ cs, c.isDigit = true ∨ c = '+' ∨ c = '-' := by
  cases h with
  | unsigned h => exact fun c hc => (h.mem c hc).imp_right .inl
  | minus h => exact List.forall_mem_cons.mpr ⟨.inr (.inr rfl), fun c hc => .inl (h.digits c hc)⟩

/-- No character of a numeral is blank, so trimming leaves it as it is. -/
theorem Signed.trim_eq {value : Int} (h : Signed value cs) : trim cs = cs := by
  refine trim_eq_self fun c hc => ?_
  rcases h.mem c hc with hdigit | rfl | rfl
  · exact isBlank_of_isDigit hdigit
  · decide
  · decide

end Numerals

end Text

open Text

/-- A number of 32 bits. -/
def NumberFor (value : Nat) (text : List Char) : Prop :=
  value < 2 ^ 32 ∧ ∃ core, Unsigned value core ∧ StandsIn core text

/-- An id: a number of 64 bits with its sign. -/
def IdFor (id : Int) (text : List Char) : Prop :=
  (-2 ^ 63 ≤ id ∧ id < 2 ^ 63) ∧ ∃ core, Signed id core ∧ StandsIn core text

/-- The ids of the home and of the away team with a comma between them. -/
def GameFor (game : Match) (text : List Char) : Prop :=
  ∃ home away, text = home ++ ',' :: away ∧ IdFor game.home home ∧ IdFor game.away away

instance : DecidablePred Blank := fun cs =>
  inferInstanceAs (Decidable (∀ c ∈ cs, isBlank c = true))

/-- Items between semicolons. Each value has an item, in order; blank items stand for nothing. -/
def ListFor {α : Type} (Item : α → List Char → Prop) (values : List α) (text : List Char) : Prop :=
  ∃ items : List (List Char), items ≠ [] ∧ (∀ item ∈ items, ';' ∉ item) ∧
    text = [';'].intercalate items ∧
      List.Forall₂ Item values (items.filter fun item => ¬ Blank item)

section Read

variable {text : List Char}

theorem natural?_trim_iff {value : Nat} :
    natural? numberLimit (trim text) = some value ↔ NumberFor value text := by
  rw [natural?_eq_some_iff]
  refine and_congr_right fun _ => ⟨fun h => ⟨_, h, standsIn_trim text⟩, ?_⟩
  rintro ⟨core, hcore, hin⟩
  rwa [hin.trim_eq, (Signed.unsigned hcore).trim_eq]

theorem integer?_trim_iff {id : Int} :
    integer? idLimit (trim text) = some id ↔ IdFor id text := by
  rw [integer?_eq_some_iff]
  refine and_congr Iff.rfl ⟨fun h => ⟨_, h, standsIn_trim text⟩, ?_⟩
  rintro ⟨core, hcore, hin⟩
  rwa [hin.trim_eq, hcore.trim_eq]

/-- White space around an id is no part of it. -/
theorem idFor_congr {id : Int} {core : List Char} (h : StandsIn core text) :
    IdFor id core ↔ IdFor id text := by
  rw [← integer?_trim_iff, ← integer?_trim_iff, h.trim_eq]

theorem IdFor.comma_notMem {id : Int} (h : IdFor id text) : ',' ∉ text := by
  obtain ⟨-, core, hcore, lead, tail, hlead, htail, rfl⟩ := h
  intro hmem
  rw [List.mem_append, List.mem_append] at hmem
  rcases hmem with (hmem | hmem) | hmem
  · exact absurd (hlead _ hmem) (by decide)
  · exact absurd (hcore.mem _ hmem) (by decide)
  · exact absurd (htail _ hmem) (by decide)

/-- The ids of a game are read around the only comma of its text. -/
theorem teamPair?_trim_iff {game : Match} :
    teamPair? (trim text) = some (game.home, game.away) ↔ GameFor game text := by
  constructor
  · intro h
    unfold teamPair? at h
    split at h
    · rename_i home away hsplit
      simp only [Option.bind_eq_bind, Option.pure_def, Option.bind_eq_some_iff,
        integer?_trim_iff, Option.some.injEq, Prod.mk.injEq] at h
      obtain ⟨_, hhome, _, haway, rfl, rfl⟩ := h
      have hcore : trim text = home ++ ',' :: away := by
        have hjoin := intercalate_split ',' (trim text)
        rw [hsplit] at hjoin
        simpa using hjoin.symm
      obtain ⟨lead, tail, hlead, htail, htext⟩ := standsIn_trim text
      refine ⟨lead ++ home, away ++ tail, ?_, ?_, ?_⟩
      · simpa [hcore] using htext
      · exact (idFor_congr ⟨lead, [], hlead, by simp [Blank], by simp⟩).mp hhome
      · exact (idFor_congr ⟨[], tail, by simp [Blank], htail, by simp⟩).mp haway
    · nomatch h
  · rintro ⟨home, away, rfl, hhome, haway⟩
    have hhome := (idFor_congr (standsIn_trimStart home)).mpr hhome
    have haway := (idFor_congr (standsIn_trimEnd away)).mpr haway
    have hsplit : split ',' (trimStart home ++ ',' :: trimEnd away) =
        [trimStart home, trimEnd away] := by
      rw [split_append_cons hhome.comma_notMem, split_of_notMem haway.comma_notMem]
    rw [trim_append_cons (by decide), teamPair?, hsplit]
    simp [integer?_trim_iff.mpr hhome, integer?_trim_iff.mpr haway]

/-- The items of a list are the pieces between its semicolons. -/
theorem listFor_iff {α : Type} {Item : α → List Char → Prop} {values : List α} :
    ListFor Item values text ↔
      List.Forall₂ Item values ((split ';' text).filter fun item => ¬ Blank item) := by
  constructor
  · rintro ⟨items, hne, hitems, rfl, h⟩
    rwa [split_intercalate hne hitems]
  · intro h
    exact ⟨split ';' text, split_ne_nil ';' text, fun item => notMem_of_mem_split,
      (intercalate_split ';' text).symm, h⟩

/-- The items that are not blank are read one at a time, each without the white space around it. -/
theorem forall₂_listItems_iff {α : Type} {Reads Item : α → List Char → Prop} {values : List α}
    {value : String} (h : ∀ a item, Reads a (trim item) ↔ Item a item) :
    List.Forall₂ Reads values (listItems value) ↔ ListFor Item values value.toList := by
  have hfilled : ∀ item, decide (trim item ≠ []) = decide (¬ Blank item) := fun item =>
    decide_eq_decide.mpr (not_congr trim_eq_nil_iff)
  simp only [listItems, List.filter_map, Function.comp_def, hfilled, List.forall₂_map_right_iff,
    listFor_iff, h]

end Read

end RoundRobin
