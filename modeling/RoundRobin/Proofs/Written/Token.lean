import Mathlib
import RoundRobin.Text.Blank
import RoundRobin.Text.Numeral

/-! The tokens of written Zimpl programs: words, numbers and single characters. Blanks separate
tokens and are dropped. A text is spelled of tokens if it scans to them in front of whatever does
not continue its last word. -/

namespace RoundRobin.Written

inductive Token where
  | word (name : String)
  | number (value : Nat)
  | symbol (char : Char)
deriving DecidableEq, Repr

def isWordChar (c : Char) : Bool := c.isAlphanum || c == '_'

/-- The token of a run of word characters; of digits alone it is a number. -/
def tokenOf (word : List Char) : Token :=
  match Text.digits? word with
  | some value => .number value
  | none => .word (String.ofList word)

/-- The tokens that a run of word characters ends with; an empty run has none. -/
def flush (word : List Char) : List Token := if word = [] then [] else [tokenOf word]

/-- The tokens of a text behind a run of word characters. -/
def scan (word : List Char) : List Char → List Token
  | [] => flush word
  | c :: cs =>
    if isWordChar c then scan (word ++ [c]) cs
    else flush word ++ if Text.isBlank c then scan [] cs else .symbol c :: scan [] cs

def tokensOf (text : List Char) : List Token := scan [] text

/-- No word continues into a text. -/
def Stops (text : List Char) : Prop := ∀ c ∈ text.head?, isWordChar c = false

/-- Characters that neither end a line nor a statement nor start a comment. -/
def isInline (c : Char) : Bool := c ≠ ';' && c ≠ '\n' && c ≠ '#'

theorem scan_word {run : List Char} (h : run.all isWordChar) (word rest : List Char) :
    scan word (run ++ rest) = scan (word ++ run) rest := by
  induction run generalizing word with
  | nil => simp
  | cons c run ih =>
    obtain ⟨hc, hrun⟩ : isWordChar c = true ∧ run.all isWordChar = true := by simpa using h
    rw [List.cons_append, scan, if_pos hc, ih hrun, List.append_assoc, List.singleton_append]

/-- Where a text stops the run before it, it is scanned by itself. -/
theorem scan_of_stops (word : List Char) {rest : List Char} (h : Stops rest) :
    scan word rest = flush word ++ scan [] rest := by
  cases rest with
  | nil => simp [scan, flush]
  | cons c rest =>
    have hc : ¬ isWordChar c = true := by simp [h c rfl]
    simp [scan, hc, flush]

/-- A text that scans to some tokens in front of whatever does not continue its last word. -/
structure Spells (text : String) (tokens : List Token) : Prop where
  inline : text.toList.all isInline
  scans : ∀ rest, Stops rest → scan [] (text.toList ++ rest) = tokens ++ scan [] rest

/-- A text that scans to some tokens in front of anything. -/
structure Closed (text : String) (tokens : List Token) : Prop where
  inline : text.toList.all isInline
  scans : ∀ rest, scan [] (text.toList ++ rest) = tokens ++ scan [] rest

/-- A closed text that no word continues into. -/
structure Separates (text : String) (tokens : List Token) : Prop extends Closed text tokens where
  head : ∃ c cs, text.toList = c :: cs ∧ isWordChar c = false

section Spelling

variable {a b c : String} {s t u : List Token}

theorem Closed.spells (h : Closed a s) : Spells a s := ⟨h.inline, fun rest _ => h.scans rest⟩

theorem Closed.append (ha : Closed a s) (hb : Closed b t) : Closed (a ++ b) (s ++ t) where
  inline := by rw [String.toList_append, List.all_append, ha.inline, hb.inline]; rfl
  scans rest := by
    rw [String.toList_append, List.append_assoc, ha.scans, hb.scans, List.append_assoc]

theorem Closed.before (ha : Closed a s) (hb : Spells b t) : Spells (a ++ b) (s ++ t) where
  inline := by rw [String.toList_append, List.all_append, ha.inline, hb.inline]; rfl
  scans rest hrest := by
    rw [String.toList_append, List.append_assoc, ha.scans, hb.scans rest hrest, List.append_assoc]

theorem Spells.before (ha : Spells a s) (hb : Separates b t) : Closed (a ++ b) (s ++ t) where
  inline := by rw [String.toList_append, List.all_append, ha.inline, hb.inline]; rfl
  scans rest := by
    have hrest : Stops (b.toList ++ rest) := by
      obtain ⟨c, cs, hb, hc⟩ := hb.head
      rw [hb]
      rintro d ⟨⟩
      exact hc
    rw [String.toList_append, List.append_assoc, ha.scans _ hrest, hb.scans, List.append_assoc]

theorem Spells.between (ha : Spells a s) (hb : Separates b t) (hc : Spells c u) :
    Spells (a ++ b ++ c) (s ++ t ++ u) :=
  (ha.before hb).before hc

theorem Closed.around (ha : Closed a s) (hb : Spells b t) (hc : Separates c u) :
    Closed (a ++ b ++ c) (s ++ t ++ u) :=
  (ha.before hb).before hc

theorem closed_empty : Closed "" [] := ⟨rfl, fun _ => rfl⟩

theorem spells_run {text : String} (hne : text.toList ≠ []) (h : text.toList.all isWordChar) :
    Spells text [tokenOf text.toList] where
  inline := by
    refine List.all_eq_true.mpr fun c hc => ?_
    have hword := List.all_eq_true.mp h c hc
    by_contra hinline
    have hc : c = ';' ∨ c = '\n' ∨ c = '#' := by
      simp only [isInline, Bool.and_eq_true, decide_eq_true_eq, not_and_or, not_not] at hinline
      tauto
    rcases hc with rfl | rfl | rfl <;> revert hword <;> decide
  scans rest hrest := by
    rw [scan_word h, List.nil_append, scan_of_stops _ hrest, flush, if_neg hne]

end Spelling

/-- Identifiers start with a letter or an underscore and go on with word characters. -/
def isIdentifier (name : String) : Bool :=
  match name.toList with
  | [] => false
  | c :: cs => (c.isAlpha || c == '_') && cs.all isWordChar

/-- Words of Zimpl that name nothing in a program. -/
def keywords : List String :=
  ["sum", "in", "with", "forall", "and", "vabs", "floor", "min", "card", "subsets", "indexset",
    "param", "set", "var", "subto", "minimize", "maximize", "binary", "integer"]

/-- Names are the identifiers that are no keywords. -/
def isName (name : String) : Bool := isIdentifier name && name ∉ keywords

theorem tokenOf_of_not_isDigit {c : Char} {cs : List Char} (h : c.isDigit = false) :
    tokenOf (c :: cs) = .word (String.ofList (c :: cs)) := by
  simp [tokenOf, Text.digits?, h]

theorem tokenOf_of_isAlpha {c : Char} {cs : List Char} (h : c.isAlpha = true) :
    tokenOf (c :: cs) = .word (String.ofList (c :: cs)) := by
  refine tokenOf_of_not_isDigit ?_
  by_contra hdigit
  have hdigit : c.isDigit = true := by simpa using hdigit
  simp only [Char.isAlpha, Char.isUpper, Char.isLower, Char.isDigit, Bool.or_eq_true,
    Bool.and_eq_true, decide_eq_true_eq, ge_iff_le, UInt32.le_iff_toNat_le] at h hdigit
  simp at h hdigit
  omega

theorem spells_word {name : String} {c : Char} {cs : List Char} (hname : name.toList = c :: cs)
    (hc : c.isAlpha = true) (hcs : cs.all isWordChar = true) : Spells name [.word name] := by
  have hword : isWordChar c = true := by simp [isWordChar, Char.isAlphanum, hc]
  have hspells : Spells name [tokenOf name.toList] :=
    spells_run (by simp [hname]) (by simp [hname, hword, hcs])
  rwa [hname, tokenOf_of_isAlpha hc, ← hname, String.ofList_toList] at hspells

theorem spells_identifier {name : String} (h : isIdentifier name = true) :
    Spells name [.word name] := by
  unfold isIdentifier at h
  cases hname : name.toList with
  | nil => simp [hname] at h
  | cons c cs =>
    obtain ⟨hc, hcs⟩ : (c.isAlpha = true ∨ c = '_') ∧ cs.all isWordChar = true := by
      simpa [hname] using h
    rcases hc with hc | rfl
    · exact spells_word hname hc hcs
    · have hspells : Spells name [tokenOf name.toList] :=
        spells_run (by simp [hname]) (by rw [hname, List.all_cons, hcs]; decide)
      rwa [hname, tokenOf_of_not_isDigit (by decide), ← hname, String.ofList_toList] at hspells

theorem isIdentifier_of_isName {name : String} (h : isName name = true) :
    isIdentifier name = true :=
  (Bool.and_eq_true_iff.mp h).1

/-- Text of word characters behind an identifier is part of it. -/
theorem isIdentifier_append {head rest : String} (hhead : isIdentifier head = true)
    (hrest : rest.toList.all isWordChar = true) : isIdentifier (head ++ rest) = true := by
  unfold isIdentifier at hhead ⊢
  rw [String.toList_append]
  cases hlist : head.toList with
  | nil => simp [hlist] at hhead
  | cons c cs =>
    rw [hlist] at hhead
    dsimp only [List.cons_append] at hhead ⊢
    rw [List.all_append, hrest, Bool.and_true]
    exact hhead

/-- A name is a word. -/
theorem spells_name {name : String} (h : isName name = true) : Spells name [.word name] :=
  spells_identifier (isIdentifier_of_isName h)

theorem isWordChar_of_isDigit {c : Char} (h : c.isDigit = true) : isWordChar c = true := by
  simp [isWordChar, Char.isAlphanum, h]

theorem spells_nat (value : Nat) : Spells (toString value) [.number value] := by
  have hlist : (toString value).toList = Nat.toDigits 10 value := by simp [toString]
  have hdigit : ∀ c ∈ Nat.toDigits 10 value, c.isDigit = true := fun _ hc =>
    Nat.isDigit_of_mem_toDigits (by decide) (by decide) hc
  have htoken : tokenOf (Nat.toDigits 10 value) = .number value := by
    simp [tokenOf, Text.digits?, Nat.toDigits_ne_nil, List.all_eq_true.mpr hdigit]
  have hspells : Spells (toString value) [tokenOf (toString value).toList] :=
    spells_run (by simp [Nat.toDigits_ne_nil])
      (List.all_eq_true.mpr fun c hc => isWordChar_of_isDigit (hdigit c (hlist ▸ hc)))
  rwa [hlist, htoken] at hspells

/-- An integer is a number, behind a minus if it is negative. -/
def intTokens (value : Int) : List Token :=
  if value < 0 then [.symbol '-', .number value.natAbs] else [.number value.natAbs]

theorem spells_int (value : Int) : Spells (toString value) (intTokens value) := by
  unfold intTokens
  have hlist := Text.toList_toString value
  have hminus : Closed "-" [.symbol '-'] := ⟨rfl, fun _ => rfl⟩
  split
  · rename_i hneg
    have htext : toString value = "-" ++ toString value.natAbs := by
      apply String.toList_inj.mp
      rw [hlist, if_pos hneg, String.toList_append]
      simp [toString]
    rw [htext]
    exact hminus.before (spells_nat _)
  · rename_i hneg
    have htext : toString value = toString value.natAbs := by
      apply String.toList_inj.mp
      rw [hlist, if_neg hneg]
      simp [toString]
    rw [htext]
    exact spells_nat _

/-- The tokens of some items with a mark between them. -/
def joinTokens (mark : Token) (items : List (List Token)) : List Token :=
  (items.flatMap (mark :: ·)).tail

def parenTokens (tokens : List Token) : List Token := .symbol '(' :: (tokens ++ [.symbol ')'])

def encloseTokens (least level : Nat) (tokens : List Token) : List Token :=
  if level < least then parenTokens tokens else tokens

def wordTokens (names : List String) : List Token :=
  joinTokens (.symbol ',') (names.map fun name => [.word name])

/-- A blank continues no word. -/
theorem isWordChar_of_isBlank {c : Char} (h : Text.isBlank c = true) : isWordChar c = false := by
  by_contra hword
  have hunderscore : c ≠ '_' := by rintro rfl; revert h; decide
  have halphanum : c.isAlphanum = true := by simpa [isWordChar, hunderscore] using hword
  simp only [Char.isAlphanum, Char.isAlpha, Char.isUpper, Char.isLower, Char.isDigit,
    Bool.or_eq_true, Bool.and_eq_true, decide_eq_true_eq, ge_iff_le,
    UInt32.le_iff_toNat_le] at halphanum
  simp [Text.isBlank, Text.blankRanges] at h halphanum
  omega

/-- Blanks in front of a text are dropped. -/
theorem scan_blank_append {text : List Char} (h : text.all Text.isBlank = true) (rest : List Char) :
    scan [] (text ++ rest) = scan [] rest := by
  induction text with
  | nil => rfl
  | cons c text ih =>
    obtain ⟨hc, htext⟩ : Text.isBlank c = true ∧ text.all Text.isBlank = true := by simpa using h
    simp [scan, isWordChar_of_isBlank hc, hc, flush, ih htext]

theorem tokensOf_blank {text : List Char} (h : text.all Text.isBlank = true) :
    tokensOf text = [] := by
  have hscan := scan_blank_append h []
  rwa [List.append_nil] at hscan

/-- A blank separates what is scanned before it from what is scanned behind it. -/
theorem scan_append_blank {c : Char} (hc : Text.isBlank c = true) (first rest word : List Char) :
    scan word (first ++ c :: rest) = scan word first ++ scan [] rest := by
  induction first generalizing word with
  | nil => simp [scan, isWordChar_of_isBlank hc, hc, flush]
  | cons d first ih =>
    rw [List.cons_append, scan, scan]
    split
    · exact ih _
    · split <;> simp [ih]

theorem Spells.tokensOf_eq {text : String} {tokens : List Token} (h : Spells text tokens) :
    tokensOf text.toList = tokens := by
  have hscan := h.scans [] nofun
  rwa [List.append_nil, scan, flush, if_pos rfl, List.append_nil] at hscan

example : tokensOf "x[m,n,s - 1] <= -12".toList =
    [.word "x", .symbol '[', .word "m", .symbol ',', .word "n", .symbol ',', .word "s", .symbol '-',
      .number 1, .symbol ']', .symbol '<', .symbol '=', .symbol '-', .number 12] := by
  decide

end RoundRobin.Written
