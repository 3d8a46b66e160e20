import RoundRobin.Markup.Scan

/-! Names of elements and attributes: a base, which a qualifier and a colon may precede. -/

namespace RoundRobin.Markup

/-- A name without a qualifier has the empty one. -/
structure Name where
  qualifier : String
  base : String
deriving DecidableEq, Repr, Inhabited

/-- Whether a part of a name starts as it must. -/
def startsName : List Char → Bool
  | c :: _ => isNameStart c
  | [] => false

/-- Takes a name. A colon ends the qualifier; a second colon is no part of the name. -/
def Name.read? (cs : List Char) : Option (Name × List Char) :=
  let first := cs.takeWhile isNamePart
  match cs.dropWhile isNamePart with
  | ':' :: rest =>
    let base := rest.takeWhile isNamePart
    if startsName base && (first.isEmpty || startsName first) then
      some (⟨String.ofList first, String.ofList base⟩, rest.dropWhile isNamePart)
    else none
  | rest => if startsName first then some (⟨"", String.ofList first⟩, rest) else none

theorem length_of_read? {cs rest : List Char} {name : Name}
    (h : Name.read? cs = some (name, rest)) : rest.length < cs.length := by
  have hsplit :
      (cs.takeWhile isNamePart).length + (cs.dropWhile isNamePart).length = cs.length := by
    rw [← List.length_append, List.takeWhile_append_dropWhile]
  unfold Name.read? at h
  simp only at h
  split at h
  · rename_i tail hdrop
    split at h
    · have := length_dropWhile_le isNamePart tail
      simp_all
      omega
    · simp at h
  · split at h
    · rename_i hstart
      cases hfirst : cs.takeWhile isNamePart with
      | nil => simp [hfirst, startsName] at hstart
      | cons c first => simp_all; omega
    · simp at h

end RoundRobin.Markup
