import Mathlib
import RoundRobin.Proofs.Written.Reader
import RoundRobin.Proofs.Written.Spelling

/-! Readers in front of what does not concern them. A chain of operands goes on over an operator and
an operand behind it, and stops in front of anything that is no operator. -/

namespace RoundRobin.Written

open Zimpl

/-- Some tokens start with none of some symbols. -/
def Avoids (marks : List Char) (tokens : List Token) : Prop :=
  ∀ c ∈ marks, tokens.head? ≠ some (.symbol c)

section Avoids

variable {marks more : List Char} {tokens : List Token}

theorem avoids_nil (marks : List Char) : Avoids marks [] := fun _ _ h => nomatch h

theorem avoids_word (marks : List Char) (name : String) (tokens : List Token) :
    Avoids marks (.word name :: tokens) := fun _ _ h => nomatch h

theorem avoids_symbol {c : Char} (h : c ∉ marks) (tokens : List Token) :
    Avoids marks (.symbol c :: tokens) := by
  intro d hd heq
  obtain rfl : c = d := by simpa using heq
  exact h hd

theorem Avoids.mono (h : Avoids marks tokens) (hsub : more ⊆ marks) : Avoids more tokens :=
  fun c hc => h c (hsub hc)

/-- A reader of operators that knows only some symbols reads none in front of other tokens. -/
theorem Avoids.eq_none {β : Type} {operator? : Token → Option β} (h : Avoids marks tokens)
    (hnone : ∀ token, (∀ c ∈ marks, token ≠ .symbol c) → operator? token = none) :
    ∀ token ∈ tokens.head?, operator? token = none :=
  fun token htoken => hnone token fun c hc heq => h c hc (heq ▸ htoken)

theorem Avoids.sumOperator? (h : Avoids ['+', '-'] tokens) :
    ∀ token ∈ tokens.head?, sumOperator? token = none :=
  h.eq_none fun token hmarks => by
    unfold Written.sumOperator?
    split <;> first | rfl | simp at hmarks

theorem Avoids.productOperator? (h : Avoids ['*', '/'] tokens) :
    ∀ token ∈ tokens.head?, productOperator? token = none :=
  h.eq_none fun token hmarks => by
    unfold Written.productOperator?
    split <;> first | rfl | simp at hmarks

theorem Avoids.setOperator? (h : Avoids ['\\'] tokens) :
    ∀ token ∈ tokens.head?, setOperator? token = none :=
  h.eq_none fun token hmarks => by
    unfold Written.setOperator?
    split <;> first | rfl | simp at hmarks

end Avoids

section Chain

variable {α β : Type}

@[simp] theorem expect_cons (token : Token) (tokens : List Token) :
    expect token (token :: tokens) = some tokens := if_pos rfl

theorem listing_self (mark : Token) :
    listing mark mark = some fun (items : List α) item => some (items ++ [item]) := if_pos rfl

theorem listing_of_ne {mark token : Token} (h : token ≠ mark) :
    (listing mark token : Option (List α → α → Option (List α))) = none := if_neg h

theorem mapped_eq {f : α → β} {item : Reader α} {tokens rest : List Token} {value : α}
    (h : item tokens = some (value, rest)) : mapped f item tokens = some (f value, rest) := by
  simp [mapped, h]

theorem closing_eq {last : Char} {item : Reader α} {tokens rest : List Token} {value : α}
    (h : item tokens = some (value, .symbol last :: rest)) :
    closing last item tokens = some (value, rest) := by
  simp [closing, h]

theorem enclosed_eq {item : Reader α} {tokens rest : List Token} {value : α}
    (h : item tokens = some (value, .symbol ')' :: rest)) :
    enclosed item (.symbol '(' :: tokens) = some (value, rest) := by
  simp [enclosed, closing_eq h]

/-- An integer reads back where numbers do, with a minus before them and without. -/
theorem read_intTokens {reader : Reader α} {rest : List Token} (value : Int → α)
    (hnumber : ∀ n : Nat, reader (.number n :: rest) = some (value n, rest))
    (hminus : ∀ n : Nat, reader (.symbol '-' :: .number n :: rest) = some (value (-n), rest))
    (i : Int) : reader (intTokens i ++ rest) = some (value i, rest) := by
  rw [intTokens]
  split
  · rename_i hneg
    have hvalue : -(i.natAbs : Int) = i := by omega
    exact (hminus i.natAbs).trans (by rw [hvalue])
  · rename_i hneg
    have hvalue : (i.natAbs : Int) = i := by omega
    exact (hnumber i.natAbs).trans (by rw [hvalue])

variable {operand : Reader β} {operator? : Token → Option (α → β → Option α)} {left joined : α}
  {right : β} {token : Token} {tokens rest : List Token} {join : α → β → Option α}

/-- A chain stops in front of what is no operator. -/
theorem chain_stop (h : ∀ token ∈ tokens.head?, operator? token = none) :
    chain operand operator? left tokens = some (left, tokens) := by
  cases tokens with
  | nil => rw [chain]
  | cons token tokens => rw [chain, h token rfl]

/-- A chain goes on over an operator and its right operand. -/
theorem chain_step (hoperator : operator? token = some join)
    (hoperand : operand tokens = some (right, rest)) (hlength : rest.length ≤ tokens.length)
    (hjoin : join left right = some joined) :
    chain operand operator? left (token :: tokens) = chain operand operator? joined rest := by
  rw [chain]
  simp only [hoperator, hoperand, if_pos hlength, hjoin, Option.bind_some]

theorem chained_eq {operand : Reader α} {operator? : Token → Option (α → α → Option α)} {first : α}
    (h : operand tokens = some (first, rest)) :
    chained operand operator? tokens = chain operand operator? first rest := by
  simp [chained, h]

end Chain

section Lists

variable {α ι : Type} {item : Reader α} {mark : Token} {tokens : ι → List Token}
  (Follows : List Token → Prop) {rest : List Token}

theorem joinTokens_cons (mark : Token) (first : List Token) (others : List (List Token)) :
    joinTokens mark (first :: others) = first ++ others.flatMap (mark :: ·) := rfl

/-- A list goes on over items with a mark before each. -/
theorem exists_chain_listing {As : ι → α → Prop} (hmark : ∀ rest, Follows (mark :: rest))
    (hrest : Follows rest) (hstop : rest.head? ≠ some mark) : {items : List ι} →
    (∀ i ∈ items, ∀ rest, Follows rest → ∃ a, As i a ∧ item (tokens i ++ rest) = some (a, rest)) →
    (left : List α) → ∃ values, List.Forall₂ As items values ∧
      chain item (listing mark) left ((items.map tokens).flatMap (mark :: ·) ++ rest) =
        some (left ++ values, rest)
  | [], _, left => by
    have hnone : ∀ token ∈ rest.head?, (listing mark token : Option (List α → α → _)) = none :=
      fun token htoken => listing_of_ne fun heq => hstop (heq ▸ htoken)
    exact ⟨[], .nil, by simpa using chain_stop hnone⟩
  | i :: items, h, left => by
    obtain ⟨hi, hitems⟩ := List.forall_mem_cons.mp h
    have hfollows : Follows ((items.map tokens).flatMap (mark :: ·) ++ rest) := by
      cases items with
      | nil => exact hrest
      | cons j items => exact hmark _
    obtain ⟨a, ha, hitem⟩ := hi _ hfollows
    obtain ⟨values, hvalues, hchain⟩ := exists_chain_listing hmark hrest hstop hitems (left ++ [a])
    refine ⟨a :: values, .cons ha hvalues, ?_⟩
    rw [List.map_cons, List.flatMap_cons, List.cons_append, List.cons_append, List.append_assoc,
      chain_step (listing_self mark) hitem (by simp) rfl, hchain]
    simp

/-- A list reads back if each of its items does in front of what may follow it. -/
theorem exists_separated {As : ι → α → Prop} (hmark : ∀ rest, Follows (mark :: rest))
    (hrest : Follows rest) (hstop : rest.head? ≠ some mark) {items : List ι} (hne : items ≠ [])
    (h : ∀ i ∈ items, ∀ rest, Follows rest → ∃ a,
      As i a ∧ item (tokens i ++ rest) = some (a, rest)) :
    ∃ values, List.Forall₂ As items values ∧
      separated mark item (joinTokens mark (items.map tokens) ++ rest) = some (values, rest) := by
  obtain ⟨first, items, rfl⟩ := List.exists_cons_of_ne_nil hne
  obtain ⟨hfirst, hitems⟩ := List.forall_mem_cons.mp h
  have hfollows : Follows ((items.map tokens).flatMap (mark :: ·) ++ rest) := by
    cases items with
    | nil => exact hrest
    | cons j items => exact hmark _
  obtain ⟨a, ha, hitem⟩ := hfirst _ hfollows
  obtain ⟨values, hvalues, hchain⟩ := exists_chain_listing Follows hmark hrest hstop hitems [a]
  refine ⟨a :: values, .cons ha hvalues, ?_⟩
  rw [List.map_cons, joinTokens_cons, List.append_assoc, separated, hitem]
  exact hchain

theorem eq_map_of_forall₂ {value : ι → α} {items : List ι} {values : List α}
    (h : List.Forall₂ (fun i a => a = value i) items values) : values = items.map value := by
  induction h with
  | nil => rfl
  | cons heq _ ih => rw [heq, ih, List.map_cons]

theorem separated_eq {value : ι → α} (hmark : ∀ rest, Follows (mark :: rest)) (hrest : Follows rest)
    (hstop : rest.head? ≠ some mark) {items : List ι} (hne : items ≠ [])
    (h : ∀ i ∈ items, ∀ rest, Follows rest → item (tokens i ++ rest) = some (value i, rest)) :
    separated mark item (joinTokens mark (items.map tokens) ++ rest) =
      some (items.map value, rest) := by
  have hvalues : ∃ values, List.Forall₂ (fun i a => a = value i) items values ∧
      separated mark item (joinTokens mark (items.map tokens) ++ rest) = some (values, rest) :=
    exists_separated Follows hmark hrest hstop hne
      fun i hi rest hrest => ⟨value i, rfl, h i hi rest hrest⟩
  obtain ⟨values, hvalues, hseparated⟩ := hvalues
  rw [hseparated, eq_map_of_forall₂ hvalues]

end Lists

/-- A name is none of the keywords. -/
theorem ne_keyword {name keyword : String} (h : isName name = true) (hmem : keyword ∈ keywords) :
    name ≠ keyword := by
  rintro rfl
  simp [isName, hmem] at h

namespace Grammar

variable {vars : List String} {inner : Grammar} {name : String}

theorem readOperand_name (h : isName name = true) (tokens : List Token) :
    inner.readOperand vars (.word name :: tokens) = inner.reference vars name tokens := by
  have hsum : name ≠ "sum" := ne_keyword h (by decide)
  have habs : name ≠ "vabs" := ne_keyword h (by decide)
  have hfloor : name ≠ "floor" := ne_keyword h (by decide)
  have hmin : name ≠ "min" := ne_keyword h (by decide)
  have hcard : name ≠ "card" := ne_keyword h (by decide)
  simp [readOperand, h]

theorem readAtom_name (h : isName name = true) (tokens : List Token) :
    inner.readAtom (.word name :: tokens) = inner.setReference name tokens := by
  have hsubsets : name ≠ "subsets" := ne_keyword h (by decide)
  have hindexset : name ≠ "indexset" := ne_keyword h (by decide)
  simp [readAtom, h]

theorem reference_of_avoids {tokens : List Token} (h : Avoids ['['] tokens) :
    inner.reference vars name tokens =
      some (if name ∈ vars then .var name [] else .const (.name name), tokens) := by
  unfold reference
  split
  · exact absurd rfl (h '[' (by decide))
  · rfl

theorem setReference_of_avoids {tokens : List Token} (h : Avoids ['['] tokens) :
    inner.setReference name tokens = some (.name name, tokens) := by
  unfold setReference
  split
  · exact absurd rfl (h '[' (by decide))
  · rfl

end Grammar

theorem nameReader_word {name : String} (h : isName name = true) (tokens : List Token) :
    nameReader (.word name :: tokens) = some (name, tokens) := if_pos h

end RoundRobin.Written
