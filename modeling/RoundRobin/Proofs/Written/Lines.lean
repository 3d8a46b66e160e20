import Mathlib
import RoundRobin.Proofs.Written.Spelling
import RoundRobin.Proofs.Written.Reader

/-! Statements as lines of tokens. Each line of a legible statement is spelled of tokens of its own,
so none is taken for a comment or a blank line, and a semicolon stands only at the end. -/

namespace RoundRobin.Written

/-- A text of one or more lines, each spelled of some of the tokens. -/
inductive Lines : String → List Token → Prop
  | last {line : String} {tokens : List Token} (h : Spells line tokens) (hne : tokens ≠ []) :
      Lines line tokens
  | cons {line text : String} {s t : List Token} (h : Spells line s) (hne : s ≠ [])
      (behind : Lines text t) : Lines (line ++ "\n" ++ text) (s ++ t)

/-- A line with tokens in it is part of a statement. -/
theorem Spells.isSpoken {line : String} {tokens : List Token} (h : Spells line tokens)
    (hne : tokens ≠ []) (behind : List Char) : isSpoken (line.toList ++ behind) = true := by
  have hblank : line.toList.all Text.isBlank = false := by
    by_contra hblank
    have hnone := tokensOf_blank (by simpa using hblank)
    exact hne (h.tokensOf_eq.symm.trans hnone)
  have hhead : (line.toList ++ behind).head? ≠ some '#' := by
    cases hline : line.toList with
    | nil => simp [hline] at hblank
    | cons c cs =>
      rintro ⟨⟩
      have hinline := h.inline
      rw [hline] at hinline
      simp [isInline] at hinline
  simp only [Written.isSpoken, List.all_append, hblank, Bool.false_and, Bool.not_false,
    Bool.true_and]
  exact decide_eq_true hhead

theorem Spells.notMem {line : String} {tokens : List Token} (h : Spells line tokens) :
    ';' ∉ line.toList ∧ '\n' ∉ line.toList := by
  have hinline := List.all_eq_true.mp h.inline
  exact ⟨fun hmem => absurd (hinline _ hmem) (by decide),
    fun hmem => absurd (hinline _ hmem) (by decide)⟩

namespace Lines

variable {text : String} {tokens : List Token}

theorem tokensOf_eq (h : Lines text tokens) : tokensOf text.toList = tokens := by
  induction h with
  | last h _ => exact h.tokensOf_eq
  | @cons line text s t h _ _ ih =>
    have htext : (line ++ "\n" ++ text).toList = line.toList ++ '\n' :: text.toList := by simp
    rw [htext, tokensOf, scan_append_blank (by decide)]
    exact congrArg₂ (· ++ ·) h.tokensOf_eq ih

theorem notMem (h : Lines text tokens) : ';' ∉ text.toList := by
  induction h with
  | last h _ => exact h.notMem.1
  | cons h _ _ ih => simp [h.notMem.1, ih]

/-- All lines of the text are part of a statement, the last one with whatever ends it. -/
theorem isSpoken (h : Lines text tokens) {last : List Char} (hlast : '\n' ∉ last) :
    ∀ line ∈ Text.split '\n' (text.toList ++ last), Written.isSpoken line = true := by
  induction h with
  | @last line tokens h hne =>
    have hnone : '\n' ∉ line.toList ++ last := by simp [h.notMem.2, hlast]
    rw [Text.split_of_notMem hnone]
    simpa using h.isSpoken hne last
  | @cons line text s t h hne _ ih =>
    have htext : (line ++ "\n" ++ text).toList ++ last =
        line.toList ++ '\n' :: (text.toList ++ last) := by simp
    rw [htext, Text.split_append_cons h.notMem.2]
    exact List.forall_mem_cons.mpr ⟨by simpa using h.isSpoken hne [], ih⟩

/-- Items with a line feed and a lead between them, each on a line of its own. -/
theorem intercalate {α : Type} {lead : String} {mark : Token} {itemText : α → String}
    {itemTokens : α → List Token} (hlead : Closed lead [mark]) (items : List α)
    (h : ∀ item ∈ items, Spells (itemText item) (itemTokens item)) {head : String}
    {headTokens : List Token} (hhead : Closed head headTokens) (hne : items ≠ [])
    (hfirst : ∀ item ∈ items.head?, headTokens ++ itemTokens item ≠ []) :
    Lines (head ++ ("\n" ++ lead).intercalate (items.map itemText))
      (headTokens ++ joinTokens mark (items.map itemTokens)) := by
  induction items generalizing head headTokens with
  | nil => exact absurd rfl hne
  | cons first items ih =>
    obtain ⟨hspells, hitems⟩ := List.forall_mem_cons.mp h
    have hline := hhead.before hspells
    cases items with
    | nil =>
      have hlast := Lines.last hline (hfirst first rfl)
      simpa [joinTokens] using hlast
    | cons second items =>
      have hbehind := ih hitems hlead (List.cons_ne_nil second items) (by simp)
      have hlines := Lines.cons hline (hfirst first rfl) hbehind
      have htokens : headTokens ++ joinTokens mark ((first :: second :: items).map itemTokens) =
          headTokens ++ itemTokens first
            ++ ([mark] ++ joinTokens mark ((second :: items).map itemTokens)) := by
        simp [joinTokens]
      rw [htokens, List.map_cons, List.map_cons, String.intercalate_cons_cons]
      simpa only [String.append_assoc, List.map_cons] using hlines

end Lines

end RoundRobin.Written
