import Mathlib
import RoundRobin.Proofs.Written.Value

/-! Arithmetic evaluated from its text. Arithmetic by itself is read by the usual rules alone:
products and quotients bind more strongly than sums and differences, all of them associate to the
left, a minus directly before digits belongs to the number, and a name with a parenthesis behind it
is a function. Whatever the names are, what is read has the value of what was written. -/

namespace RoundRobin.Written

open Zimpl

def plusOperator? : Token → Option (Arith → Arith → Option Arith)
  | .symbol '+' => some fun a b => some (.add a b)
  | .symbol '-' => some fun a b => some (.sub a b)
  | _ => none

def timesOperator? : Token → Option (Arith → Arith → Option Arith)
  | .symbol '*' => some fun a b => some (.mul a b)
  | .symbol '/' => some fun a b => some (.div a b)
  | _ => none

/-- An operand of a product. Only a function has a parenthesis behind its name. -/
def factorReader (inner : Reader Arith) : Reader Arith
  | .number value :: tokens => some (.int value, tokens)
  | .symbol '-' :: .number value :: tokens => some (.int (-value), tokens)
  | .symbol '(' :: tokens => closing ')' inner tokens
  | .word "floor" :: .symbol '(' :: tokens => mapped .floor (closing ')' inner) tokens
  | .word "min" :: .symbol '(' :: tokens => do
    let (a, tokens) ← closing ',' inner tokens
    mapped (.min a) (closing ')' inner) tokens
  | .word "card" :: .symbol '(' :: .word set :: .symbol ')' :: tokens =>
    some (.card (.name set), tokens)
  | .word name :: tokens => some (.name name, tokens)
  | _ => none

/-- A product or quotient, read from the left. -/
def termReader (inner : Reader Arith) : Reader Arith := chained (factorReader inner) timesOperator?

/-- Arithmetic of some depth of nesting. -/
def arithReader : Nat → Reader Arith
  | 0 => fun _ => none
  | level + 1 => chained (termReader (arithReader level)) plusOperator?

/-- The arithmetic that all of a text is read as. -/
def readArith? (text : String) : Option Arith :=
  let tokens := tokensOf text.toList
  match arithReader (tokens.length + 1) tokens with
  | some (value, []) => some value
  | _ => none

section ReadsOn

/-- A reader takes some tokens for a value in front of what does not start with some marks. -/
def ReadsAs (reader : Reader Arith) (marks : List Char) (tokens : List Token)
    (value : Arith) : Prop :=
  ∀ rest, Avoids marks rest → reader (tokens ++ rest) = some (value, rest)

variable (operand : Reader Arith) (operator? : Token → Option (Arith → Arith → Option Arith))
  (sign : Char) (join : Arith → Arith → Arith)

/-- Reads on behind a sign that has a term on its left, or from the start. -/
def readOn : Option Arith → Reader Arith
  | none => chained operand operator?
  | some left => fun tokens => chain operand operator? left (.symbol sign :: tokens)

/-- Some tokens are joined to the term on their left, if there is one, and the chain goes on from
there. -/
def ReadsOn (marks : List Char) (tokens : List Token) (value : Arith) : Prop :=
  ∀ left? rest, Avoids marks rest → readOn operand operator? sign left? (tokens ++ rest) =
    chain operand operator? (left?.elim value (join · value)) rest

variable {operand operator? sign join} {marks : List Char} {first second : List Token} {a b : Arith}
  {op : Arith → Arith → Arith}

theorem ReadsAs.on (h : ReadsAs operand marks first a)
    (hsign : operator? (.symbol sign) = some fun a b => some (op a b))
    (hjoin : ∀ left, join left a = op left a) : ReadsOn operand operator? sign join marks first a
  | none, rest, hrest => chained_eq (h rest hrest)
  | some left, rest, hrest =>
    chain_step hsign (h rest hrest) (by simp) (congrArg some (hjoin left).symm)

/-- The sign of the chain opens its right operand. -/
theorem ReadsOn.opened (ha : ReadsOn operand operator? sign join marks first a)
    (hb : ReadsOn operand operator? sign join marks second b) (hmarks : sign ∉ marks)
    (hassoc : ∀ left, join left (join a b) = join (join left a) b) :
    ReadsOn operand operator? sign join marks (first ++ [.symbol sign] ++ second) (join a b) := by
  intro left? rest hrest
  have hfirst := ha left? (.symbol sign :: (second ++ rest)) (avoids_symbol hmarks _)
  -- What the first has become stands on the left of the second.
  have hsecond := hb (some (left?.elim a (join · a))) rest hrest
  have htokens : first ++ [.symbol sign] ++ second ++ rest =
      first ++ .symbol sign :: (second ++ rest) := by simp
  rw [htokens, hfirst]
  refine hsecond.trans ?_
  cases left? with
  | none => rfl
  | some left => rw [Option.elim_some, Option.elim_some, Option.elim_some, hassoc]

/-- Another sign takes its right operand as it is. -/
theorem ReadsOn.closed {other : Char} (ha : ReadsOn operand operator? sign join marks first a)
    (hb : ReadsAs operand marks second b) (hmarks : other ∉ marks)
    (hother : operator? (.symbol other) = some fun a b => some (op a b))
    (hjoin : ∀ left, join left (op a b) = op (join left a) b) :
    ReadsOn operand operator? sign join marks (first ++ [.symbol other] ++ second) (op a b) := by
  intro left? rest hrest
  have hfirst := ha left? (.symbol other :: (second ++ rest)) (avoids_symbol hmarks _)
  have htokens : first ++ [.symbol other] ++ second ++ rest =
      first ++ .symbol other :: (second ++ rest) := by simp
  rw [htokens, hfirst, chain_step hother (hb rest hrest) (by simp) rfl]
  cases left? with
  | none => rfl
  | some left => rw [Option.elim_some, Option.elim_some, hjoin]

/-- Where no operator follows, the chain ends. -/
theorem ReadsOn.whole {stops : List Char} (h : ReadsOn operand operator? sign join marks first a)
    (hmarks : marks ⊆ stops)
    (hstops : ∀ rest, Avoids stops rest → ∀ token ∈ rest.head?, operator? token = none) :
    ReadsAs (chained operand operator?) stops first a := by
  intro rest hrest
  have hread := h none rest (hrest.mono hmarks)
  exact hread.trans (chain_stop (hstops rest hrest))

end ReadsOn

theorem Avoids.plusOperator? {tokens : List Token} (h : Avoids ['+', '-'] tokens) :
    ∀ token ∈ tokens.head?, plusOperator? token = none :=
  h.eq_none fun token hmarks => by
    unfold Written.plusOperator?
    split <;> first | rfl | simp at hmarks

theorem Avoids.timesOperator? {tokens : List Token} (h : Avoids ['*', '/'] tokens) :
    ∀ token ∈ tokens.head?, timesOperator? token = none :=
  h.eq_none fun token hmarks => by
    unfold Written.timesOperator?
    split <;> first | rfl | simp at hmarks

/-- The marks that a name, a product or a sum goes on with. -/
abbrev nameMarks : List Char := ['(']
abbrev productMarks : List Char := ['(', '*', '/']
abbrev sumMarks : List Char := ['(', '*', '/', '+', '-']

section Readers

variable {inner : Reader Arith} {marks : List Char} {tokens rest : List Token} {value : Arith}

theorem factorReader_name (name : String) (h : Avoids nameMarks rest) :
    factorReader inner (.word name :: rest) = some (.name name, rest) := by
  have hparen : ∀ tokens, rest ≠ .symbol '(' :: tokens := by
    rintro tokens rfl
    exact h '(' (by decide) rfl
  unfold factorReader
  split <;> simp_all

theorem factorReader_int (value : Int) :
    ReadsAs (factorReader inner) marks (intTokens value) (.int value) :=
  fun _ _ => read_intTokens Arith.int (fun _ => rfl) (fun _ => rfl) value

/-- What reads in front of a mark reads with the mark behind it. -/
theorem ReadsAs.closing {last : Char} (h : ReadsAs inner sumMarks tokens value)
    (hlast : last ∉ sumMarks) (rest : List Token) :
    closing last inner (tokens ++ .symbol last :: rest) = some (value, rest) :=
  closing_eq (h _ (avoids_symbol hlast rest))

theorem ReadsAs.paren (h : ReadsAs inner sumMarks tokens value) :
    ReadsAs (factorReader inner) marks (parenTokens tokens) value := by
  intro rest _
  rw [parenTokens_append]
  exact h.closing (by decide) rest

end Readers

end RoundRobin.Written

namespace RoundRobin.Zimpl

open Written

/-- Arithmetic over identifiers, with numbers of members of named sets. -/
def Arith.isPlain : Arith → Bool
  | .int _ => true
  | .name symbol => isIdentifier symbol
  | .add a b | .sub a b | .mul a b | .div a b | .min a b => a.isPlain && b.isPlain
  | .floor a => a.isPlain
  | .card (.name set) => isIdentifier set
  | .card _ => false

/-- How arithmetic reads as an operand, in a product and in a sum, nested no deeper than it is
long. -/
structure Arith.Evaluates (a : Arith) : Prop where
  operand : ∀ level, (encloseTokens 3 a.level a.tokens).length ≤ level →
    ReadsAs (factorReader (arithReader level)) nameMarks (encloseTokens 3 a.level a.tokens) a.asRead
  product : ∀ level, (encloseTokens 2 a.level a.tokens).length ≤ level →
    ReadsOn (factorReader (arithReader level)) timesOperator? '*' .times nameMarks
      (encloseTokens 2 a.level a.tokens) a.asRead
  sum : ∀ level, a.tokens.length ≤ level →
    ReadsOn (termReader (arithReader level)) plusOperator? '+' .plus productMarks a.tokens a.asRead

namespace Arith

section Strengths

variable {a : Arith} {level : Nat} {inner : Reader Arith}

theorem sum_of_product (hlevel : a.level ≠ 1)
    (h : ReadsOn (factorReader inner) timesOperator? '*' .times nameMarks a.tokens a.asRead) :
    ReadsOn (termReader inner) plusOperator? '+' .plus productMarks a.tokens a.asRead := by
  have hwhole : ReadsAs (termReader inner) productMarks a.tokens a.asRead :=
    h.whole (by decide) fun rest hrest => (hrest.mono (by decide)).timesOperator?
  exact hwhole.on rfl (plus_of_level (by rwa [level_asRead]))

variable (hsum : ∀ level, a.tokens.length ≤ level →
  ReadsOn (termReader (arithReader level)) plusOperator? '+' .plus productMarks a.tokens a.asRead)
include hsum

theorem whole_of_sum (hlength : a.tokens.length < level) :
    ReadsAs (arithReader level) sumMarks a.tokens a.asRead := by
  obtain ⟨level, rfl⟩ := Nat.exists_eq_add_one_of_ne_zero (Nat.ne_zero_of_lt hlength)
  exact (hsum level (Nat.le_of_lt_succ hlength)).whole (by decide) fun rest hrest =>
    (hrest.mono (by decide)).plusOperator?

theorem paren_of_sum (hlength : (parenTokens a.tokens).length ≤ level) :
    ReadsAs (factorReader (arithReader level)) nameMarks (parenTokens a.tokens) a.asRead := by
  rw [length_parenTokens] at hlength
  exact (whole_of_sum hsum (by omega)).paren

end Strengths

namespace Evaluates

variable {a b : Arith} {level : Nat}

theorem of_sum (hlevel : a.level = 1) (hsum : ∀ level, a.tokens.length ≤ level →
      ReadsOn (termReader (arithReader level)) plusOperator? '+' .plus productMarks a.tokens
        a.asRead) : a.Evaluates := by
  have h2 : encloseTokens 2 a.level a.tokens = parenTokens a.tokens := if_pos (by omega)
  have h3 : encloseTokens 3 a.level a.tokens = parenTokens a.tokens := if_pos (by omega)
  have hread : a.asRead.level ≠ 2 := by rw [level_asRead]; omega
  refine ⟨fun level hlength => ?_, fun level hlength => ?_, hsum⟩
  · rw [h3] at hlength ⊢
    exact paren_of_sum hsum hlength
  · rw [h2] at hlength ⊢
    exact (paren_of_sum hsum hlength).on rfl (times_of_level hread)

theorem of_product (hlevel : a.level = 2) (hproduct : ∀ level, a.tokens.length ≤ level →
      ReadsOn (factorReader (arithReader level)) timesOperator? '*' .times nameMarks a.tokens
        a.asRead) : a.Evaluates := by
  have h2 : encloseTokens 2 a.level a.tokens = a.tokens := if_neg (by omega)
  have h3 : encloseTokens 3 a.level a.tokens = parenTokens a.tokens := if_pos (by omega)
  have hsum := fun level hlength => sum_of_product (by omega) (hproduct level hlength)
  refine ⟨fun level hlength => ?_, h2.symm ▸ hproduct, hsum⟩
  rw [h3] at hlength ⊢
  exact paren_of_sum hsum hlength

theorem of_operand (hlevel : a.level = 3) (hoperand : ∀ level, a.tokens.length ≤ level →
      ReadsAs (factorReader (arithReader level)) nameMarks a.tokens a.asRead) : a.Evaluates := by
  have h2 : encloseTokens 2 a.level a.tokens = a.tokens := if_neg (by omega)
  have h3 : encloseTokens 3 a.level a.tokens = a.tokens := if_neg (by omega)
  have hread : a.asRead.level ≠ 2 := by rw [level_asRead]; omega
  have hproduct : ∀ level, a.tokens.length ≤ level → ReadsOn (factorReader (arithReader level))
      timesOperator? '*' .times nameMarks a.tokens a.asRead := fun level hlength =>
    (hoperand level hlength).on rfl (times_of_level hread)
  exact ⟨h3.symm ▸ hoperand, h2.symm ▸ hproduct,
    fun level hlength => sum_of_product (by omega) (hproduct level hlength)⟩

theorem whole (h : a.Evaluates) (hlength : a.tokens.length < level) :
    ReadsAs (arithReader level) sumMarks a.tokens a.asRead :=
  whole_of_sum h.sum hlength

/-- The right operand of a difference is a whole term. -/
theorem term (h : a.Evaluates) (hlength : (encloseTokens 2 a.level a.tokens).length ≤ level) :
    ReadsAs (termReader (arithReader level)) productMarks
      (encloseTokens 2 a.level a.tokens) a.asRead :=
  (h.product level hlength).whole (by decide) fun rest hrest =>
    (hrest.mono (by decide)).timesOperator?

theorem int (value : Int) : (Arith.int value).Evaluates :=
  of_operand rfl fun _ _ => factorReader_int value

theorem name (symbol : String) : (Arith.name symbol).Evaluates :=
  of_operand rfl fun _ _ _ hrest => factorReader_name symbol hrest

theorem add (ha : a.Evaluates) (hb : b.Evaluates) : (Arith.add a b).Evaluates := by
  refine of_sum rfl fun level hlength => ?_
  have hlengths : a.tokens.length ≤ level ∧ b.tokens.length ≤ level := by
    simp only [Arith.tokens, List.length_append] at hlength
    omega
  exact (ha.sum level hlengths.1).opened (hb.sum level hlengths.2) (by decide) fun left =>
    plus_plus left a.asRead b.asRead

theorem sub (ha : a.Evaluates) (hb : b.Evaluates) : (Arith.sub a b).Evaluates := by
  refine of_sum rfl fun level hlength => ?_
  have hlengths : a.tokens.length ≤ level ∧ (encloseTokens 2 b.level b.tokens).length ≤ level := by
    simp only [Arith.tokens, List.length_append] at hlength
    omega
  exact (ha.sum level hlengths.1).closed (hb.term hlengths.2) (by decide) rfl fun _ => rfl

theorem mul (ha : a.Evaluates) (hb : b.Evaluates) : (Arith.mul a b).Evaluates := by
  refine of_product rfl fun level hlength => ?_
  have hlengths : (encloseTokens 2 a.level a.tokens).length ≤ level ∧
      (encloseTokens 2 b.level b.tokens).length ≤ level := by
    simp only [Arith.tokens, List.length_append] at hlength
    omega
  exact (ha.product level hlengths.1).opened (hb.product level hlengths.2) (by decide) fun left =>
    times_times left a.asRead b.asRead

theorem div (ha : a.Evaluates) (hb : b.Evaluates) : (Arith.div a b).Evaluates := by
  refine of_product rfl fun level hlength => ?_
  have hlengths : (encloseTokens 2 a.level a.tokens).length ≤ level ∧
      (encloseTokens 3 b.level b.tokens).length ≤ level := by
    simp only [Arith.tokens, List.length_append] at hlength
    omega
  exact (ha.product level hlengths.1).closed (hb.operand level hlengths.2) (by decide) rfl fun _ =>
    rfl

theorem floor (ha : a.Evaluates) : (Arith.floor a).Evaluates := by
  refine of_operand rfl fun level hlength rest _ => ?_
  have hlength : a.tokens.length < level := by
    simp only [Arith.tokens, List.length_append, List.length_cons] at hlength
    omega
  have htokens : (Arith.floor a).tokens ++ rest =
      .word "floor" :: .symbol '(' :: (a.tokens ++ .symbol ')' :: rest) := by
    simp [Arith.tokens]
  rw [htokens]
  exact mapped_eq ((ha.whole hlength).closing (by decide) rest)

theorem min (ha : a.Evaluates) (hb : b.Evaluates) : (Arith.min a b).Evaluates := by
  refine of_operand rfl fun level hlength rest _ => ?_
  have hlengths : a.tokens.length < level ∧ b.tokens.length < level := by
    simp only [Arith.tokens, List.length_append, List.length_cons] at hlength
    omega
  have htokens : (Arith.min a b).tokens ++ rest = .word "min" :: .symbol '(' ::
      (a.tokens ++ .symbol ',' :: (b.tokens ++ .symbol ')' :: rest)) := by
    simp [Arith.tokens]
  have hfirst : closing ',' (arithReader level) (a.tokens ++ .symbol ',' ::
      (b.tokens ++ .symbol ')' :: rest)) = some (a.asRead, b.tokens ++ .symbol ')' :: rest) :=
    (ha.whole hlengths.1).closing (by decide) _
  have hsecond : mapped (Arith.min a.asRead) (closing ')' (arithReader level))
      (b.tokens ++ .symbol ')' :: rest) = some (.min a.asRead b.asRead, rest) :=
    mapped_eq ((hb.whole hlengths.2).closing (by decide) rest)
  rw [htokens, factorReader, hfirst]
  exact hsecond

theorem card (set : String) : (Arith.card (.name set)).Evaluates :=
  of_operand rfl fun _ _ _ _ => rfl

end Evaluates

theorem evaluates : (a : Arith) → a.isPlain = true → a.Evaluates
  | .int value, _ => .int value
  | .name symbol, _ => .name symbol
  | .card (.name set), _ => .card set
  | .floor a, h => (a.evaluates h).floor
  | .add a b, h =>
    have h := Bool.and_eq_true_iff.mp h
    (a.evaluates h.1).add (b.evaluates h.2)
  | .sub a b, h =>
    have h := Bool.and_eq_true_iff.mp h
    (a.evaluates h.1).sub (b.evaluates h.2)
  | .mul a b, h =>
    have h := Bool.and_eq_true_iff.mp h
    (a.evaluates h.1).mul (b.evaluates h.2)
  | .div a b, h =>
    have h := Bool.and_eq_true_iff.mp h
    (a.evaluates h.1).div (b.evaluates h.2)
  | .min a b, h =>
    have h := Bool.and_eq_true_iff.mp h
    (a.evaluates h.1).min (b.evaluates h.2)

theorem identified_of_isPlain : (a : Arith) → a.isPlain = true → Identified a.mentions
  | .int _, _ => List.forall_mem_nil _
  | .name _, h | .card (.name _), h => List.forall_mem_singleton.mpr h
  | .floor a, h => a.identified_of_isPlain h
  | .add a b, h | .sub a b, h | .mul a b, h | .div a b, h | .min a b, h => by
    obtain ⟨ha, hb⟩ := Bool.and_eq_true_iff.mp h
    exact identified_append.mpr ⟨a.identified_of_isPlain ha, b.identified_of_isPlain hb⟩

theorem spells_of_isPlain (a : Arith) (h : a.isPlain = true) : Spells a.text a.tokens :=
  a.spells_of_identified (a.identified_of_isPlain h)

/-- The text of arithmetic over identifiers reads as arithmetic of the same value, whatever its
names and sets stand for. -/
theorem evaluates_text (a : Arith) (h : a.isPlain = true) :
    ∃ read, readArith? a.text = some read ∧ ∀ env, read.value? env = a.value? env := by
  have hread := (a.evaluates h).whole (Nat.lt_succ_self _) [] (avoids_nil _)
  rw [List.append_nil] at hread
  refine ⟨a.asRead, ?_, fun env => a.value?_asRead env⟩
  rw [readArith?, (a.spells_of_isPlain h).tokensOf_eq]
  simp only [hread]

/-- A product of a quotient that is written without parentheses, and with a negative number behind a
minus. -/
def tangledArith : Arith :=
  .sub (.mul (.int (-2)) (.div (.name "_n") (.sub (.name "floor") (.int (-3)))))
    (.add (.floor (.name "n")) (.min (.card (.name "T")) (.int (-1))))

theorem evaluates_text_tangled :
    ∃ read, readArith? "-2 * _n / (floor - -3) - (floor(n) + min(card(T), -1))" = some read ∧
      ∀ env, read.value? env = tangledArith.value? env := by
  have htext : tangledArith.text = "-2 * _n / (floor - -3) - (floor(n) + min(card(T), -1))" := by
    decide
  exact htext ▸ evaluates_text tangledArith (by decide)

end Arith

end RoundRobin.Zimpl
