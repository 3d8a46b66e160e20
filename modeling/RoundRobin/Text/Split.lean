/-! Text cut at a separator, and text as lines. -/

namespace RoundRobin.Text

/-- The pieces between the separators; text without a separator is its only piece. -/
def split (separator : Char) : List Char → List (List Char)
  | [] => [[]]
  | c :: cs =>
    if c = separator then [] :: split separator cs
    else match split separator cs with
      | [] => [[c]]
      | piece :: pieces => (c :: piece) :: pieces

/-- The lines of a text, each without its line feed. No line follows the last line feed. -/
def lines (cs : List Char) : List (List Char) :=
  let pieces := split '\n' cs
  if pieces.getLast? = some [] then pieces.dropLast else pieces

theorem split_ne_nil (separator : Char) (cs : List Char) : split separator cs ≠ [] := by
  induction cs with
  | nil => simp [split]
  | cons c cs ih =>
    unfold split
    split
    · simp
    · split <;> simp_all

theorem split_of_notMem {separator : Char} {cs : List Char} (h : separator ∉ cs) :
    split separator cs = [cs] := by
  induction cs with
  | nil => rfl
  | cons c cs ih =>
    simp only [List.mem_cons, not_or] at h
    simp [split, ih h.2, Ne.symm h.1]

/-- A separator ends the piece before it. -/
theorem split_append_cons {separator : Char} {piece rest : List Char} (h : separator ∉ piece) :
    split separator (piece ++ separator :: rest) = piece :: split separator rest := by
  induction piece with
  | nil => simp [split]
  | cons c cs ih =>
    simp only [List.mem_cons, not_or] at h
    simp [split, ih h.2, Ne.symm h.1]

/-- No piece holds the separator. -/
theorem notMem_of_mem_split {separator : Char} {cs piece : List Char}
    (h : piece ∈ split separator cs) : separator ∉ piece := by
  induction cs generalizing piece with
  | nil => simp_all [split]
  | cons c cs ih =>
    unfold split at h
    split at h
    · rcases List.mem_cons.mp h with rfl | h
      · simp
      · exact ih h
    · split at h
      · simp_all
        exact Ne.symm ‹_›
      · rename_i first rest hsplit
        rcases List.mem_cons.mp h with rfl | h
        · have : separator ∉ first := ih (by simp [hsplit])
          simp_all
          exact Ne.symm ‹_›
        · exact ih (by simp [hsplit, h])

/-- Joined with the separator, the pieces give the text back. -/
theorem intercalate_split (separator : Char) (cs : List Char) :
    [separator].intercalate (split separator cs) = cs := by
  induction cs with
  | nil => simp [split]
  | cons c cs ih =>
    unfold split
    split
    · subst c
      cases hs : split separator cs with
      | nil => exact absurd hs (split_ne_nil _ _)
      | cons piece pieces => simp_all [List.intercalate]
    · split
      · exact absurd ‹_› (split_ne_nil _ _)
      · rename_i piece pieces hs
        rw [hs] at ih
        cases pieces <;> simp_all [List.intercalate]

/-- What is cut at a separator is cut before and behind it. -/
theorem split_append_separator (separator : Char) (a b : List Char) :
    split separator (a ++ separator :: b) = split separator a ++ split separator b := by
  induction a with
  | nil => simp [split]
  | cons c a ih =>
    rw [List.cons_append, split, split]
    split
    · rw [ih, List.cons_append]
    · rw [ih]
      cases ha : split separator a with
      | nil => exact absurd ha (split_ne_nil separator a)
      | cons piece pieces => rfl

/-- Cut at the separator that joins them, pieces without it come out again. -/
theorem split_intercalate {separator : Char} : {pieces : List (List Char)} → pieces ≠ [] →
    (∀ piece ∈ pieces, separator ∉ piece) →
      split separator ([separator].intercalate pieces) = pieces
  | [], hne, _ => absurd rfl hne
  | [piece], _, h => by
    simpa using split_of_notMem (h piece (.head _))
  | first :: second :: pieces, _, h => by
    obtain ⟨hfirst, hrest⟩ := List.forall_mem_cons.mp h
    rw [List.intercalate_cons_cons, List.append_assoc, List.singleton_append,
      split_append_cons hfirst, split_intercalate (List.cons_ne_nil _ _) hrest]

/-- Joined pieces hold what one of them or the separator holds. -/
theorem notMem_intercalate {c separator : Char} (hc : c ≠ separator) :
    {pieces : List (List Char)} → (∀ piece ∈ pieces, c ∉ piece) →
      c ∉ [separator].intercalate pieces
  | [], _ => by simp
  | [piece], h => by simpa using h
  | first :: second :: pieces, h => by
    obtain ⟨hfirst, hrest⟩ := List.forall_mem_cons.mp h
    rw [List.intercalate_cons_cons, List.mem_append, List.mem_append, not_or, not_or]
    exact ⟨⟨hfirst, by simpa using hc⟩, notMem_intercalate hc hrest⟩

/-- A line feed behind each line gives the text with a line feed behind it. -/
theorem flatMap_split (text : List Char) :
    (split '\n' text).flatMap (· ++ ['\n']) = text ++ ['\n'] := by
  induction text with
  | nil => rfl
  | cons c text ih =>
    rw [split]
    split
    · rename_i hc
      rw [List.flatMap_cons, ih, hc]
      rfl
    · cases htext : split '\n' text with
      | nil => exact absurd htext (split_ne_nil '\n' text)
      | cons line lines =>
        rw [htext, List.flatMap_cons] at ih
        rw [List.flatMap_cons, List.cons_append, List.cons_append, ih]
        rfl

theorem split_flatMap (texts : List (List Char)) :
    split '\n' (texts.flatMap (· ++ ['\n'])) = texts.flatMap (split '\n') ++ [[]] := by
  induction texts with
  | nil => rfl
  | cons text texts ih =>
    rw [List.flatMap_cons, List.flatMap_cons, List.append_assoc, List.append_assoc,
      List.singleton_append, split_append_separator, ih]

/-- The lines of texts with a line feed behind each. -/
theorem lines_flatMap (texts : List (List Char)) :
    lines (texts.flatMap (· ++ ['\n'])) = texts.flatMap (split '\n') := by
  simp [lines, split_flatMap]

theorem notMem_of_mem_lines {text line : List Char} (h : line ∈ lines text) : '\n' ∉ line := by
  unfold lines at h
  dsimp only at h
  split at h
  · exact notMem_of_mem_split ((List.dropLast_sublist _).subset h)
  · exact notMem_of_mem_split h

end RoundRobin.Text
