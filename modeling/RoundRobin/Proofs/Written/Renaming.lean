import Mathlib
import RoundRobin.Proofs.Written.Program
import RoundRobin.Proofs.Numbering.Run

/-! Tournaments under other names. A name may hold any characters, line feeds and semicolons among
them. It reaches the text of a program in a comment only, of which each line starts with a number
sign, and nothing else depends on it. -/

namespace RoundRobin

open Zimpl

/-- The lines of a text, cut at its line feeds, but for those that start with a number sign. -/
def Text.unsignedLines (text : String) : List (List Char) :=
  (Text.split '\n' text.toList).filter fun line => line.head? ≠ some '#'

theorem Text.lines_ne_nil {cs : List Char} (h : cs ≠ []) : Text.lines cs ≠ [] := by
  unfold Text.lines
  dsimp only
  split
  · rename_i hlast
    intro hnone
    obtain hpieces : Text.split '\n' cs = [[]] := by
      rw [← List.dropLast_append_getLast? _ hlast, hnone, List.nil_append]
    exact h (by rw [← Text.intercalate_split '\n' cs, hpieces]; rfl)
  · exact Text.split_ne_nil '\n' cs

/-- The lines of a program are those of its statements, and an empty one behind the last line
feed. -/
theorem Zimpl.Program.unsignedLines_text (program : Program) :
    Text.unsignedLines program.text =
      program.flatMap (fun s => Text.unsignedLines s.text) ++ [[]] := by
  rw [Text.unsignedLines, Program.toList_text, Text.split_flatMap, List.flatMap_map,
    List.filter_append, List.filter_flatMap]
  rfl

theorem unsignedLines_comment {text : String} (hne : text.toList ≠ []) :
    Text.unsignedLines (Statement.comment text).text = [] :=
  List.filter_eq_nil_iff.mpr fun line hline => by
    simp [head?_of_mem_comment (Text.lines_ne_nil hne) line hline]

/-- The comment on the name of a tournament, if it has one. -/
def nameComment : Option String → List Statement
  | some name => [.comment ("Name: " ++ name)]
  | none => []

theorem unsignedLines_nameComment (name : Option String) :
    (nameComment name).flatMap (fun s => Text.unsignedLines s.text) = [] := by
  cases name with
  | none => rfl
  | some name =>
    have hne : ("Name: " ++ name).toList ≠ [] := by simp
    rw [nameComment, List.flatMap_singleton, unsignedLines_comment hne]

namespace Tournament

/-- But for the comment on its name, the program of a tournament is that of one without a name. -/
theorem program_named (t : Tournament) (name : Option String) (options : Options) :
    program { t with name } options =
      nameComment name ++ program { t with name := none } options := by
  have hframe : Frame.statements { t with name } options =
      nameComment name ++ Frame.statements { t with name := none } options := by
    cases name <;> rfl
  simp only [program, hframe, List.append_assoc]
  rfl

theorem unsignedLines_program (t : Tournament) (name : Option String) (options : Options) :
    Text.unsignedLines (Program.text (program { t with name } options)) =
      Text.unsignedLines (Program.text (program { t with name := none } options)) := by
  rw [program_named, Program.unsignedLines_text, List.flatMap_append, unsignedLines_nameComment,
    List.nil_append, ← Program.unsignedLines_text]

/-- Tournaments that differ only in their names are formulated alike: both fail for the same reason,
or the texts of their programs have the same lines, but for those that start with a number sign. -/
theorem formulate_renamed (t : Tournament) (name other : Option String) (options : Options) :
    (∃ failure, formulate { t with name } options = .error failure ∧
      formulate { t with name := other } options = .error failure) ∨
    ∃ p q, formulate { t with name } options = .ok p ∧
      formulate { t with name := other } options = .ok q ∧
      Text.unsignedLines (Program.text p) = Text.unsignedLines (Program.text q) := by
  have hchecks : ∀ name : Option String, formulate { t with name } options =
      t.numbered.forM (Numbered.check options) >>= fun _ => .ok (program { t with name } options) :=
    fun _ => formulate_eq _ options
  rw [hchecks, hchecks]
  cases t.numbered.forM (Numbered.check options) with
  | error failure => exact .inl ⟨failure, rfl, rfl⟩
  | ok _ =>
    refine .inr ⟨_, _, rfl, rfl, ?_⟩
    rw [unsignedLines_program t name, unsignedLines_program t other]

end Tournament

end RoundRobin
