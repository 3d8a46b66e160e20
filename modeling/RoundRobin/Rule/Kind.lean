/-! The nine kinds of rules that a double round robin can be asked to keep: capacity rules `CA1` to
`CA4`, games `GA1`, separation `SE1`, breaks `BR1` and `BR2`, and fairness `FA2`. -/

namespace RoundRobin

inductive Kind where
  | ca1 | ca2 | ca3 | ca4 | ga1 | se1 | br1 | br2 | fa2
deriving DecidableEq, Repr, Inhabited

namespace Kind

def all : List Kind := [ca1, ca2, ca3, ca4, ga1, se1, br1, br2, fa2]

/-- The code of the kind, which names its elements and its set of violations. -/
def tag : Kind → String
  | ca1 => "CA1"
  | ca2 => "CA2"
  | ca3 => "CA3"
  | ca4 => "CA4"
  | ga1 => "GA1"
  | se1 => "SE1"
  | br1 => "BR1"
  | br2 => "BR2"
  | fa2 => "FA2"

/-- The start of the names of the constraints and variables that a kind gives rise to. -/
def stem : Kind → String
  | ca1 => "ca1"
  | ca2 => "ca2"
  | ca3 => "ca3"
  | ca4 => "ca4"
  | ga1 => "ga1"
  | se1 => "se1"
  | br1 => "br1"
  | br2 => "br2"
  | fa2 => "fa2"

def ofTag? (tag : String) : Option Kind := all.find? (·.tag == tag)

theorem mem_all (kind : Kind) : kind ∈ all := by cases kind <;> decide

/-- A kind is known by its tag and by no other text. -/
theorem ofTag?_eq_some_iff {tag : String} {kind : Kind} :
    ofTag? tag = some kind ↔ kind.tag = tag := by
  constructor
  · intro h
    simpa using List.find?_some h
  · rintro rfl
    cases kind <;> decide

end Kind

end RoundRobin
