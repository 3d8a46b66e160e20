import Mathlib
import RoundRobin.Proofs.Written.Reading

/-! Programs read back. Without its comments and blank lines, the text of a program is the texts of
its statements, each ended by a semicolon; each of them reads back as a statement that says the
same. -/

namespace RoundRobin.Zimpl

open Written

/-- Each line of a comment starts with a number sign, unless the comment is empty. -/
theorem head?_of_mem_comment {text : String} (hne : Text.lines text.toList ≠ []) :
    ∀ line ∈ Text.split '\n' (commentText text).toList, line.head? = some '#' := by
  have hlines : (commentText text).toList =
      ['\n'].intercalate
        ((Text.lines text.toList).map fun line => Text.trimEnd ('#' :: ' ' :: line)) := by
    simp [commentText, String.toList_intercalate, Function.comp_def]
  have hpieces : ∀ line ∈ Text.lines text.toList,
      ∃ rest, Text.trimEnd ('#' :: ' ' :: line) = '#' :: rest ∧ '\n' ∉ rest := by
    intro line hline
    obtain ⟨rest, htrim, hsub⟩ := Text.trimEnd_cons (c := '#') (by decide) (' ' :: line)
    refine ⟨rest, htrim, fun hmem => ?_⟩
    rcases List.mem_cons.mp (hsub hmem) with hblank | hmem
    · exact absurd hblank (by decide)
    · exact Text.notMem_of_mem_lines hline hmem
  rw [hlines, Text.split_intercalate (by simpa using hne)]
  · intro line hline
    obtain ⟨line, hmem, rfl⟩ := List.mem_map.mp hline
    obtain ⟨rest, htrim, -⟩ := hpieces line hmem
    rw [htrim, List.head?_cons]
  · intro line hline
    obtain ⟨line, hmem, rfl⟩ := List.mem_map.mp hline
    obtain ⟨rest, htrim, hrest⟩ := hpieces line hmem
    simp [htrim, hrest]

/-- No line of a comment is part of a statement. -/
theorem isSpoken_comment (text : String) :
    ∀ line ∈ Text.split '\n' (commentText text).toList, isSpoken line = false := by
  by_cases hne : Text.lines text.toList = []
  · simp [commentText, hne, Text.split, isSpoken]
  · intro line hline
    simp [isSpoken, head?_of_mem_comment hne line hline]

section Statements

variable {vars : List String}

/-- The lines of a statement are part of it, and those of a comment or a blank line of none. -/
theorem Statement.filter_isSpoken {statement : Statement} (h : statement.legible vars = true) :
    ((Text.split '\n' statement.text.toList).filter Written.isSpoken).flatMap (· ++ ['\n']) =
      if statement.isSpoken then statement.text.toList ++ ['\n'] else [] := by
  cases hspoken : statement.isSpoken with
  | true =>
    obtain ⟨body, htext, hlines⟩ := Statement.lines h hspoken
    have hall : ∀ line ∈ Text.split '\n' (body.toList ++ [';']), Written.isSpoken line = true :=
      hlines.isSpoken (by decide)
    have hlist : statement.text.toList = body.toList ++ [';'] := by simp [htext]
    rw [hlist, List.filter_eq_self.mpr hall, Text.flatMap_split]
    rfl
  | false =>
    have hnone : ∀ line ∈ Text.split '\n' statement.text.toList, Written.isSpoken line = false := by
      cases statement with
      | comment text => exact isSpoken_comment text
      | blank => simp [Statement.text, Text.split, Written.isSpoken]
      | _ => cases hspoken
    have hfilter : (Text.split '\n' statement.text.toList).filter Written.isSpoken = [] :=
      List.filter_eq_nil_iff.mpr fun line hline => by simp [hnone line hline]
    rw [hfilter]
    rfl

theorem Program.toList_text (program : Program) :
    program.text.toList = (program.map fun s => s.text.toList).flatMap (· ++ ['\n']) := by
  simp [Program.text, List.flatMap_map]

theorem statementText_program {program : Program} (h : ∀ s ∈ program, s.legible vars = true) :
    statementText program.text.toList =
      (program.filter Statement.isSpoken).flatMap fun s => s.text.toList ++ ['\n'] := by
  rw [statementText, Program.toList_text, Text.lines_flatMap]
  induction program with
  | nil => rfl
  | cons s program ih =>
    obtain ⟨hs, hprogram⟩ := List.forall_mem_cons.mp h
    rw [List.map_cons, List.flatMap_cons, List.filter_append, List.flatMap_append,
      Statement.filter_isSpoken hs, ih hprogram, List.filter_cons]
    split <;> rfl

/-- The texts between the semicolons have the tokens of the statements; behind the last there are
none. -/
theorem tokensOf_split {statements : List Statement} (h : ∀ s ∈ statements, s.legible vars = true)
    (hspoken : ∀ s ∈ statements, s.isSpoken = true) {lead : List Char}
    (hblank : lead.all Text.isBlank = true) (hlead : ';' ∉ lead) :
    (Text.split ';' (lead ++ statements.flatMap fun s => s.text.toList ++ ['\n'])).map tokensOf =
      statements.map Statement.tokens ++ [[]] := by
  induction statements generalizing lead with
  | nil =>
    rw [List.flatMap_nil, List.append_nil, Text.split_of_notMem hlead]
    simp [tokensOf_blank hblank]
  | cons s statements ih =>
    obtain ⟨hs, hothers⟩ := List.forall_mem_cons.mp h
    obtain ⟨hsaid, hsaids⟩ := List.forall_mem_cons.mp hspoken
    obtain ⟨body, htext, hlines⟩ := Statement.lines hs hsaid
    have hbody : ';' ∉ lead ++ body.toList := by simp [hlead, hlines.notMem]
    have hwhole : lead ++ (s :: statements).flatMap (fun s => s.text.toList ++ ['\n']) =
        (lead ++ body.toList) ++ ';' ::
          (['\n'] ++ statements.flatMap fun s => s.text.toList ++ ['\n']) := by
      simp [htext]
    have htokens : tokensOf (lead ++ body.toList) = s.tokens := by
      rw [tokensOf, scan_blank_append hblank]
      exact hlines.tokensOf_eq
    rw [hwhole, Text.split_append_cons hbody, List.map_cons, htokens, ih hothers hsaids (by decide)
      (by decide)]
    rfl

theorem Statement.declaredVariable?_tokens (statement : Statement) :
    declaredVariable? statement.tokens = match statement with
      | .var decl => some decl.name
      | _ => none := by
  cases statement with
  | objective goal =>
    obtain ⟨direction, name, terms⟩ := goal
    cases direction <;> rfl
  | var decl => simp [Statement.tokens, VarDecl.tokens, declaredVariable?]
  | _ => rfl

/-- The declared variables of a program are those of its tokens. -/
theorem declaredVariables_program (program : Program) :
    ((program.filter Statement.isSpoken).map Statement.tokens ++ [[]]).filterMap declaredVariable? =
      program.varDecls.map (·.name) := by
  have hnone : [([] : List Token)].filterMap declaredVariable? = [] := rfl
  rw [List.filterMap_append, hnone, List.append_nil, List.filterMap_map, List.filterMap_filter,
    Program.varDecls, List.map_filterMap]
  refine List.filterMap_congr fun s _ => ?_
  rw [Function.comp_apply, s.declaredVariable?_tokens]
  cases s <;> rfl

theorem exists_mapM_readStatement? {statements : List Statement}
    (h : ∀ s ∈ statements, s.legible vars = true) (hspoken : ∀ s ∈ statements, s.isSpoken = true) :
    ∃ read, (statements.map Statement.tokens).mapM (readStatement? vars) = some read ∧
      List.Forall₂ Statement.Alike statements read := by
  induction statements with
  | nil => exact ⟨[], rfl, .nil⟩
  | cons s statements ih =>
    obtain ⟨hs, hothers⟩ := List.forall_mem_cons.mp h
    obtain ⟨hsaid, hsaids⟩ := List.forall_mem_cons.mp hspoken
    obtain ⟨first, hfirst, halike⟩ := Statement.exists_readStatement? hs hsaid
    obtain ⟨read, hread, halikes⟩ := ih hothers hsaids
    exact ⟨first :: read, by simp [List.mapM_cons, hfirst, hread], .cons halike halikes⟩

/-- A program of legible statements reads back as statements that say the same, in their order. -/
theorem Program.exists_readProgram? {program : Program}
    (h : ∀ s ∈ program, s.legible (program.varDecls.map (·.name)) = true) :
    ∃ read, readProgram? program.text = some read ∧
      List.Forall₂ Statement.Alike (program.filter Statement.isSpoken) read := by
  have hlegible : ∀ s ∈ program.filter Statement.isSpoken,
      s.legible (program.varDecls.map (·.name)) = true :=
        fun s hs => h s (List.mem_of_mem_filter hs)
  have hspoken : ∀ s ∈ program.filter Statement.isSpoken, s.isSpoken = true := fun s hs =>
    List.of_mem_filter hs
  have htokens : (pieces program.text.toList).map tokensOf =
      (program.filter Statement.isSpoken).map Statement.tokens ++ [[]] := by
    rw [pieces, statementText_program h]
    exact tokensOf_split hlegible hspoken (List.all_nil) List.not_mem_nil
  obtain ⟨read, hread, halike⟩ := exists_mapM_readStatement? hlegible hspoken
  refine ⟨read, ?_, halike⟩
  rw [readProgram?, htokens]
  simp only [List.getLast?_append, List.getLast?_singleton, Option.some_or, if_true,
    List.dropLast_concat, declaredVariables_program, hread]

end Statements

end RoundRobin.Zimpl
