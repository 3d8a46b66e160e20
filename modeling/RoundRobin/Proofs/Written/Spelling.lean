import Mathlib
import RoundRobin.Proofs.Written.Token
import RoundRobin.Proofs.Zimpl.Mention
import RoundRobin.Zimpl.Printer

/-! The tokens of written terms. The text of a term is spelled of its tokens if all its names are
identifiers. A term is legible if moreover its names are names of Zimpl, those of declared variables
are told from others, and no operand loses the parentheses that it needs. -/

namespace RoundRobin.Zimpl

open Written

mutual

def Arith.tokens : Arith → List Token
  | .int value => intTokens value
  | .name symbol => [.word symbol]
  | .add a b => a.tokens ++ [.symbol '+'] ++ b.tokens
  | .sub a b => a.tokens ++ [.symbol '-'] ++ encloseTokens 2 b.level b.tokens
  | .mul a b =>
    encloseTokens 2 a.level a.tokens ++ [.symbol '*'] ++ encloseTokens 2 b.level b.tokens
  | .div a b =>
    encloseTokens 2 a.level a.tokens ++ [.symbol '/'] ++ encloseTokens 3 b.level b.tokens
  | .floor a => [.word "floor", .symbol '('] ++ a.tokens ++ [.symbol ')']
  | .min a b =>
    [.word "min", .symbol '('] ++ a.tokens ++ [.symbol ','] ++ b.tokens ++ [.symbol ')']
  | .card set => [.word "card", .symbol '('] ++ set.tokens ++ [.symbol ')']

def Arith.tokensAll : List Arith → List (List Token)
  | [] => []
  | a :: as => a.tokens :: Arith.tokensAll as

def SetTerm.tokens : SetTerm → List Token
  | .name set => [.word set]
  | .member family index => [.word family] ++ [.symbol '['] ++ index.tokens ++ [.symbol ']']
  | .range first last =>
    [.symbol '\x7b'] ++ first.tokens ++ [.symbol '.', .symbol '.'] ++
      last.tokens ++ [.symbol '\x7d']
  | .list elements =>
    [.symbol '\x7b'] ++ joinTokens (.symbol ',') (Arith.tokensAll elements) ++ [.symbol '\x7d']
  | .product factors => joinTokens (.symbol '*') (SetTerm.factorTokens factors)
  | .minus a b => a.tokens ++ [.symbol '\\'] ++ b.tokens
  | .builder index => [.symbol '\x7b'] ++ index.tokens ++ [.symbol '\x7d']
  | .subsets set size =>
    [.word "subsets", .symbol '('] ++ set.tokens ++ [.symbol ','] ++ [.number size] ++ [.symbol ')']
  | .indexset family => [.word "indexset", .symbol '('] ++ [.word family] ++ [.symbol ')']

def SetTerm.factorTokens : List SetTerm → List (List Token)
  | [] => []
  | s :: ss =>
    (if s.isCompound then parenTokens s.tokens else s.tokens)
      :: SetTerm.factorTokens ss

def Index.tokens : Index → List Token
  | .mk symbols domain condition =>
    [.symbol '<'] ++ wordTokens symbols ++ [.symbol '>', .word "in"] ++ domain.tokens
      ++ condition.tokens

def Condition.tokens : Condition → List Token
  | .always => []
  | .ne a b => [.word "with"] ++ a.tokens ++ [.symbol '!', .symbol '='] ++ b.tokens
  | .lt a b => [.word "with"] ++ a.tokens ++ [.symbol '<'] ++ b.tokens

end

/-- A factor of a product of sets, in parentheses where it is compound. -/
def SetTerm.factorToken (s : SetTerm) : List Token :=
  if s.isCompound then parenTokens s.tokens else s.tokens

def SetTerm.factorText (s : SetTerm) : String :=
  if s.isCompound then "(" ++ s.text ++ ")" else s.text

theorem Arith.tokensAll_eq_map (as : List Arith) : Arith.tokensAll as = as.map Arith.tokens := by
  induction as with
  | nil => rfl
  | cons a as ih => simp [Arith.tokensAll, ih]

theorem SetTerm.factorTokens_eq_map (ss : List SetTerm) :
    SetTerm.factorTokens ss = ss.map SetTerm.factorToken := by
  induction ss with
  | nil => rfl
  | cons s ss ih => simp [SetTerm.factorTokens, SetTerm.factorToken, ih]

theorem SetTerm.factorTexts_eq_map (ss : List SetTerm) :
    SetTerm.factorTexts ss = ss.map SetTerm.factorText := by
  induction ss with
  | nil => rfl
  | cons s ss ih => simp [SetTerm.factorTexts, SetTerm.factorText, ih]

/-- A sum or difference may not stand next to a sign that binds more strongly. -/
def Linear.isTight : Linear → Bool
  | .const value => 2 ≤ value.level
  | _ => true

/-- Whether a sum or difference of variables needs parentheses as an operand. -/
def Linear.isLoose : Linear → Bool
  | .sum _ | .diff _ _ => true
  | _ => false

mutual

/-- The tokens of a term that stands by itself. -/
def Linear.tokens : Linear → List Token
  | .const value => value.tokens
  | .var name [] => [.word name]
  | .var name subscripts =>
    [.word name] ++ [.symbol '['] ++ joinTokens (.symbol ',') (subscripts.map Arith.tokens)
      ++ [.symbol ']']
  | .sum terms => joinTokens (.symbol '+') (Linear.tokensAll terms)
  | .diff a b =>
    a.tokens ++ [.symbol '-']
      ++ (if b.isLoose then parenTokens b.tokens else b.tokens)
  | .scaled factor term =>
    encloseTokens 3 factor.level factor.tokens ++ [.symbol '*']
      ++ (if term.isLoose then parenTokens term.tokens else term.tokens)
  | .weighted term weight =>
    (if term.isLoose then parenTokens term.tokens else term.tokens)
      ++ [.symbol '*'] ++ intTokens weight
  | .sumOver index body =>
    [.word "sum"] ++ index.tokens ++ [.symbol ':']
      ++ (if body.isLoose then parenTokens body.tokens else body.tokens)
  | .abs term => [.word "vabs", .symbol '('] ++ term.tokens ++ [.symbol ')']

def Linear.tokensAll : List Linear → List (List Token)
  | [] => []
  | term :: terms => term.tokens :: Linear.tokensAll terms

end

theorem Linear.tokensAll_eq_map (terms : List Linear) :
    Linear.tokensAll terms = terms.map Linear.tokens := by
  induction terms with
  | nil => rfl
  | cons term terms ih => simp [Linear.tokensAll, ih]

/-- The tokens of a term as an operand. -/
def Linear.operandTokens (term : Linear) : List Token :=
  if term.isLoose then parenTokens term.tokens else term.tokens

def SetTerm.isDifference : SetTerm → Bool
  | .minus _ _ => true
  | _ => false

section Legible

variable (vars : List String)

mutual

def Arith.legible : Arith → Bool
  | .int _ => true
  | .name symbol => isName symbol && symbol ∉ vars
  | .add a b | .sub a b | .mul a b | .div a b | .min a b => a.legible && b.legible
  | .floor a => a.legible
  | .card set => set.legible

def Arith.allLegible : List Arith → Bool
  | [] => true
  | a :: as => a.legible && Arith.allLegible as

/-- A difference as the right operand of a difference would lose its parentheses. -/
def SetTerm.legible : SetTerm → Bool
  | .name set => isName set
  | .member family index => isName family && index.legible
  | .range first last => first.legible && last.legible
  | .list elements => Arith.allLegible elements
  | .product factors => !factors.isEmpty && SetTerm.allLegible factors
  | .minus a b => a.legible && b.legible && !b.isDifference
  | .builder index => index.legible
  | .subsets set _ => set.legible
  | .indexset family => isName family

def SetTerm.allLegible : List SetTerm → Bool
  | [] => true
  | s :: ss => s.legible && SetTerm.allLegible ss

def Index.legible : Index → Bool
  | .mk symbols domain condition =>
    !symbols.isEmpty && symbols.all isName && domain.legible && condition.legible

def Condition.legible : Condition → Bool
  | .always => true
  | .ne a b | .lt a b => a.legible && b.legible

end

theorem Arith.allLegible_eq_all (as : List Arith) :
    Arith.allLegible vars as = as.all (·.legible vars) := by
  induction as with
  | nil => rfl
  | cons a as ih => simp [Arith.allLegible, ih]

theorem SetTerm.allLegible_eq_all (ss : List SetTerm) :
    SetTerm.allLegible vars ss = ss.all (·.legible vars) := by
  induction ss with
  | nil => rfl
  | cons s ss ih => simp [SetTerm.allLegible, ih]

mutual

/-- A variable without subscripts has to be a declared one. -/
def Linear.legible : Linear → Bool
  | .const value => value.legible vars
  | .var name subscripts =>
    isName name && (!subscripts.isEmpty || name ∈ vars) && subscripts.all (·.legible vars)
  | .sum terms => !terms.isEmpty && Linear.allLegible terms
  | .diff a b => a.legible && b.legible && b.isTight
  | .scaled factor term => factor.legible vars && term.legible && term.isTight
  | .weighted term _ => term.legible && term.isTight
  | .sumOver index body => index.legible vars && body.legible && body.isTight
  | .abs term => term.legible

def Linear.allLegible : List Linear → Bool
  | [] => true
  | term :: terms => term.legible && Linear.allLegible terms

end

theorem Linear.allLegible_eq_all (terms : List Linear) :
    Linear.allLegible vars terms = terms.all (·.legible vars) := by
  induction terms with
  | nil => rfl
  | cons term terms ih => simp [Linear.allLegible, ih]

end Legible

/-- All names that are mentioned are identifiers. -/
def Identified (mentions : List Mention) : Prop :=
  ∀ mention ∈ mentions, isIdentifier mention.name = true

section Identified

variable {vars : List String}

theorem identified_append {a b : List Mention} : Identified (a ++ b) ↔
    Identified a ∧ Identified b :=
  List.forall_mem_append

theorem identified_used {name : String} {mentions : List Mention} :
    Identified (.used name :: mentions) ↔ isIdentifier name = true ∧ Identified mentions :=
  List.forall_mem_cons

theorem identified_bound {symbols : List String} :
    Identified (symbols.map .bound) ↔ ∀ symbol ∈ symbols, isIdentifier symbol = true :=
  List.forall_mem_map

theorem identified_of_isName {name : String} (h : isName name = true) : Identified [.used name] :=
  List.forall_mem_singleton.mpr (isIdentifier_of_isName h)

mutual

theorem Arith.identified : (a : Arith) → a.legible vars = true → Identified a.mentions
  | .int _, _ => List.forall_mem_nil _
  | .name _, h => identified_of_isName (Bool.and_eq_true_iff.mp h).1
  | .add a b, h | .sub a b, h | .mul a b, h | .div a b, h | .min a b, h => by
    obtain ⟨ha, hb⟩ := Bool.and_eq_true_iff.mp h
    exact identified_append.mpr ⟨a.identified ha, b.identified hb⟩
  | .floor a, h => a.identified h
  | .card set, h => set.identified h

theorem Arith.identifiedAll : (as : List Arith) → Arith.allLegible vars as = true →
    Identified (Arith.allMentions as)
  | [], _ => List.forall_mem_nil _
  | a :: as, h => by
    obtain ⟨ha, has⟩ := Bool.and_eq_true_iff.mp h
    exact identified_append.mpr ⟨a.identified ha, Arith.identifiedAll as has⟩

theorem SetTerm.identified : (s : SetTerm) → s.legible vars = true → Identified s.mentions
  | .name _, h => identified_of_isName h
  | .member _ index, h => by
    obtain ⟨hfamily, hindex⟩ := Bool.and_eq_true_iff.mp h
    exact identified_used.mpr ⟨isIdentifier_of_isName hfamily, index.identified hindex⟩
  | .range first last, h => by
    obtain ⟨hfirst, hlast⟩ := Bool.and_eq_true_iff.mp h
    exact identified_append.mpr ⟨first.identified hfirst, last.identified hlast⟩
  | .list elements, h => Arith.identifiedAll elements h
  | .product factors, h => SetTerm.identifiedAll factors (Bool.and_eq_true_iff.mp h).2
  | .minus a b, h => by
    obtain ⟨ha, hb⟩ := Bool.and_eq_true_iff.mp (Bool.and_eq_true_iff.mp h).1
    exact identified_append.mpr ⟨a.identified ha, b.identified hb⟩
  | .builder index, h => index.identified h
  | .subsets set _, h => set.identified h
  | .indexset _, h => identified_of_isName h

theorem SetTerm.identifiedAll : (ss : List SetTerm) → SetTerm.allLegible vars ss = true →
    Identified (SetTerm.allMentions ss)
  | [], _ => List.forall_mem_nil _
  | s :: ss, h => by
    obtain ⟨hs, hss⟩ := Bool.and_eq_true_iff.mp h
    exact identified_append.mpr ⟨s.identified hs, SetTerm.identifiedAll ss hss⟩

theorem Index.identified : (index : Index) → index.legible vars = true → Identified index.mentions
  | .mk symbols domain condition, h => by
    simp only [Index.legible, Bool.and_eq_true, List.all_eq_true] at h
    have hsymbols : Identified (symbols.map .bound) := identified_bound.mpr fun symbol hsymbol =>
      isIdentifier_of_isName (h.1.1.2 symbol hsymbol)
    exact identified_append.mpr
      ⟨identified_append.mpr ⟨domain.identified h.1.2, hsymbols⟩, condition.identified h.2⟩

theorem Condition.identified : (condition : Condition) → condition.legible vars = true →
    Identified condition.mentions
  | .always, _ => List.forall_mem_nil _
  | .ne a b, h | .lt a b, h => by
    obtain ⟨ha, hb⟩ := Bool.and_eq_true_iff.mp h
    exact identified_append.mpr ⟨a.identified ha, b.identified hb⟩

end

mutual

theorem Linear.identified : (term : Linear) → term.legible vars = true → Identified term.mentions
  | .const value, h => value.identified h
  | .var name subscripts, h => by
    simp only [Linear.legible, Bool.and_eq_true, ← Arith.allLegible_eq_all] at h
    exact identified_used.mpr ⟨isIdentifier_of_isName h.1.1, Arith.identifiedAll subscripts h.2⟩
  | .sum terms, h => Linear.identifiedAll terms (Bool.and_eq_true_iff.mp h).2
  | .diff a b, h => by
    obtain ⟨ha, hb⟩ := Bool.and_eq_true_iff.mp (Bool.and_eq_true_iff.mp h).1
    exact identified_append.mpr ⟨a.identified ha, b.identified hb⟩
  | .scaled factor term, h => by
    obtain ⟨hfactor, hterm⟩ := Bool.and_eq_true_iff.mp (Bool.and_eq_true_iff.mp h).1
    exact identified_append.mpr ⟨factor.identified hfactor, term.identified hterm⟩
  | .weighted term _, h => term.identified (Bool.and_eq_true_iff.mp h).1
  | .sumOver index body, h => by
    obtain ⟨hindex, hbody⟩ := Bool.and_eq_true_iff.mp (Bool.and_eq_true_iff.mp h).1
    exact identified_append.mpr ⟨index.identified hindex, body.identified hbody⟩
  | .abs term, h => term.identified h

theorem Linear.identifiedAll : (terms : List Linear) → Linear.allLegible vars terms = true →
    Identified (Linear.allMentions terms)
  | [], _ => List.forall_mem_nil _
  | term :: terms, h => by
    obtain ⟨hterm, hterms⟩ := Bool.and_eq_true_iff.mp h
    exact identified_append.mpr ⟨term.identified hterm, Linear.identifiedAll terms hterms⟩

end

end Identified

section Spells

variable {vars : List String}

theorem separates_close : Separates ")" [.symbol ')'] := ⟨⟨rfl, fun _ => rfl⟩, _, _, rfl, rfl⟩

theorem separates_comma : Separates ", " [.symbol ','] := ⟨⟨rfl, fun _ => rfl⟩, _, _, rfl, rfl⟩

theorem separates_colon : Separates ": " [.symbol ':'] := ⟨⟨rfl, fun _ => rfl⟩, _, _, rfl, rfl⟩

theorem separates_plus : Separates " + " [.symbol '+'] := ⟨⟨rfl, fun _ => rfl⟩, _, _, rfl, rfl⟩

theorem separates_minus : Separates " - " [.symbol '-'] := ⟨⟨rfl, fun _ => rfl⟩, _, _, rfl, rfl⟩

theorem separates_times : Separates " * " [.symbol '*'] := ⟨⟨rfl, fun _ => rfl⟩, _, _, rfl, rfl⟩

/-- Subscripts and bound symbols are written without blanks between them. -/
theorem separates_tight : Separates "," [.symbol ','] := ⟨⟨rfl, fun _ => rfl⟩, _, _, rfl, rfl⟩

theorem closed_brace : Closed "\x7b " [.symbol '\x7b'] := ⟨rfl, fun _ => rfl⟩

theorem separates_brace : Separates " \x7d" [.symbol '\x7d'] :=
  ⟨⟨rfl, fun _ => rfl⟩, _, _, rfl, rfl⟩

theorem spells_enclosed {text : String} {tokens : List Token} (h : Spells text tokens) :
    Spells ("(" ++ text ++ ")") (parenTokens tokens) :=
  have hopen : Closed "(" [.symbol '('] := ⟨rfl, fun _ => rfl⟩
  (hopen.around h separates_close).spells

/-- What stands in brackets behind a name. -/
theorem spells_member {head text : String} {name tokens : List Token} (hhead : Spells head name)
    (h : Spells text tokens) : Spells (head ++ "[" ++ text ++ "]")
      (name ++ [.symbol '['] ++ tokens ++ [.symbol ']']) :=
  have hopen : Separates "[" [.symbol '['] := ⟨⟨rfl, fun _ => rfl⟩, _, _, rfl, rfl⟩
  have hclose : Separates "]" [.symbol ']'] := ⟨⟨rfl, fun _ => rfl⟩, _, _, rfl, rfl⟩
  ((hhead.between hopen h).before hclose).spells

theorem spells_enclose {text : String} {tokens : List Token} (h : Spells text tokens)
    (least level : Nat) : Spells (enclose least level text) (encloseTokens least level tokens) := by
  unfold enclose encloseTokens
  split
  · exact spells_enclosed h
  · exact h

/-- Texts with a separator between them. -/
theorem spells_intercalate {α : Type} {separator : String} {mark : Token} {text : α → String}
    {tokens : α → List Token} (hseparator : Separates separator [mark]) {items : List α}
    (h : ∀ item ∈ items, Spells (text item) (tokens item)) :
    Spells (separator.intercalate (items.map text)) (joinTokens mark (items.map tokens)) := by
  induction items with
  | nil => exact closed_empty.spells
  | cons first items ih =>
    obtain ⟨hfirst, hitems⟩ := List.forall_mem_cons.mp h
    cases items with
    | nil => simpa [joinTokens] using hfirst
    | cons second items =>
      have htokens : joinTokens mark ((first :: second :: items).map tokens) =
          tokens first ++ [mark] ++ joinTokens mark ((second :: items).map tokens) := by
        simp [joinTokens]
      rw [List.map_cons, List.map_cons, String.intercalate_cons_cons, htokens]
      exact hfirst.between hseparator (ih hitems)

theorem spells_words {names : List String} (h : ∀ name ∈ names, isIdentifier name = true) :
    Spells (",".intercalate names) (wordTokens names) := by
  have hnames : Spells (",".intercalate (names.map id)) (wordTokens names) :=
    spells_intercalate separates_tight fun name hname => spells_identifier (h name hname)
  rwa [List.map_id] at hnames

/-- A comparison behind the domain that it filters. -/
theorem spells_comparison {head first second sign : String}
    {tokens firsts seconds mark : List Token}
    (hhead : Spells head tokens) (hfirst : Spells first firsts) (hsign : Separates sign mark)
    (hsecond : Spells second seconds) : Spells (head ++ (" with " ++ first ++ sign ++ second))
      (tokens ++ ([.word "with"] ++ firsts ++ mark ++ seconds)) := by
  have hwith : Separates " with " [.word "with"] := ⟨⟨rfl, fun _ => rfl⟩, _, _, rfl, rfl⟩
  have hspells := hhead.between hwith (hfirst.between hsign hsecond)
  simpa only [String.append_assoc, List.append_assoc] using hspells

theorem spells_factor {s : SetTerm} (h : Spells s.text s.tokens) :
    Spells s.factorText s.factorToken := by
  unfold SetTerm.factorText SetTerm.factorToken
  split
  · exact spells_enclosed h
  · exact h

theorem Arith.level_pos (a : Arith) : 1 ≤ a.level := by
  cases a <;> simp [Arith.level]

theorem enclose_one (a : Arith) (text : String) : enclose 1 a.level text = text := by
  rw [enclose, if_neg (by have := a.level_pos; omega)]

namespace Arith

variable {a b : Arith} {set : SetTerm}

theorem spells_add (ha : Spells a.text a.tokens) (hb : Spells b.text b.tokens) :
    Spells (Arith.add a b).text (Arith.add a b).tokens := by
  rw [Arith.text, enclose_one, enclose_one]
  exact ha.between separates_plus hb

theorem spells_sub (ha : Spells a.text a.tokens) (hb : Spells b.text b.tokens) :
    Spells (Arith.sub a b).text (Arith.sub a b).tokens := by
  rw [Arith.text, enclose_one]
  exact ha.between separates_minus (spells_enclose hb 2 b.level)

theorem spells_mul (ha : Spells a.text a.tokens) (hb : Spells b.text b.tokens) :
    Spells (Arith.mul a b).text (Arith.mul a b).tokens :=
  (spells_enclose ha 2 a.level).between separates_times (spells_enclose hb 2 b.level)

theorem spells_div (ha : Spells a.text a.tokens) (hb : Spells b.text b.tokens) :
    Spells (Arith.div a b).text (Arith.div a b).tokens := by
  have hover : Separates " / " [.symbol '/'] := ⟨⟨rfl, fun _ => rfl⟩, _, _, rfl, rfl⟩
  exact (spells_enclose ha 2 a.level).between hover (spells_enclose hb 3 b.level)

theorem spells_floor (ha : Spells a.text a.tokens) :
    Spells (Arith.floor a).text (Arith.floor a).tokens := by
  have hfloor : Closed "floor(" [.word "floor", .symbol '('] := ⟨rfl, fun _ => rfl⟩
  exact (hfloor.around ha separates_close).spells

theorem spells_min (ha : Spells a.text a.tokens) (hb : Spells b.text b.tokens) :
    Spells (Arith.min a b).text (Arith.min a b).tokens := by
  have hmin : Closed "min(" [.word "min", .symbol '('] := ⟨rfl, fun _ => rfl⟩
  exact (((hmin.around ha separates_comma).before hb).before separates_close).spells

theorem spells_card (hset : Spells set.text set.tokens) :
    Spells (Arith.card set).text (Arith.card set).tokens := by
  have hcard : Closed "card(" [.word "card", .symbol '('] := ⟨rfl, fun _ => rfl⟩
  exact (hcard.around hset separates_close).spells

end Arith

mutual

theorem Arith.spells_of_identified : (a : Arith) → Identified a.mentions → Spells a.text a.tokens
  | .int value, _ => spells_int value
  | .name _, h => spells_identifier (identified_used.mp h).1
  | .add a b, h => by
    obtain ⟨ha, hb⟩ := identified_append.mp h
    exact Arith.spells_add (a.spells_of_identified ha) (b.spells_of_identified hb)
  | .sub a b, h => by
    obtain ⟨ha, hb⟩ := identified_append.mp h
    exact Arith.spells_sub (a.spells_of_identified ha) (b.spells_of_identified hb)
  | .mul a b, h => by
    obtain ⟨ha, hb⟩ := identified_append.mp h
    exact Arith.spells_mul (a.spells_of_identified ha) (b.spells_of_identified hb)
  | .div a b, h => by
    obtain ⟨ha, hb⟩ := identified_append.mp h
    exact Arith.spells_div (a.spells_of_identified ha) (b.spells_of_identified hb)
  | .floor a, h => Arith.spells_floor (a.spells_of_identified h)
  | .min a b, h => by
    obtain ⟨ha, hb⟩ := identified_append.mp h
    exact Arith.spells_min (a.spells_of_identified ha) (b.spells_of_identified hb)
  | .card set, h => Arith.spells_card (set.spells_of_identified h)

theorem Arith.spellsAll : (as : List Arith) → Identified (Arith.allMentions as) →
    ∀ a ∈ as, Spells a.text a.tokens
  | [], _, _, hmem => nomatch hmem
  | a :: as, h, b, hmem => by
    obtain ⟨ha, has⟩ := identified_append.mp h
    rcases List.mem_cons.mp hmem with heq | hmem
    · exact heq ▸ a.spells_of_identified ha
    · exact Arith.spellsAll as has b hmem

theorem SetTerm.spells_of_identified : (s : SetTerm) → Identified s.mentions →
    Spells s.text s.tokens
  | .name _, h => spells_identifier (identified_used.mp h).1
  | .member family index, h => by
    obtain ⟨hfamily, hindex⟩ := identified_used.mp h
    exact spells_member (spells_identifier hfamily) (index.spells_of_identified hindex)
  | .range first last, h => by
    obtain ⟨hfirst, hlast⟩ := identified_append.mp h
    have hdots : Separates " .. " [.symbol '.', .symbol '.'] :=
      ⟨⟨rfl, fun _ => rfl⟩, _, _, rfl, rfl⟩
    have hfirst := closed_brace.around (first.spells_of_identified hfirst) hdots
    exact ((hfirst.before (last.spells_of_identified hlast)).before separates_brace).spells
  | .list elements, h => by
    have hopen : Closed "\x7b" [.symbol '\x7b'] := ⟨rfl, fun _ => rfl⟩
    have hclose : Separates "\x7d" [.symbol '\x7d'] := ⟨⟨rfl, fun _ => rfl⟩, _, _, rfl, rfl⟩
    rw [SetTerm.text, SetTerm.tokens, Arith.texts_eq_map, Arith.tokensAll_eq_map]
    exact (hopen.around (spells_intercalate separates_comma (Arith.spellsAll elements h))
      hclose).spells
  | .product factors, h => by
    rw [SetTerm.text, SetTerm.tokens, SetTerm.factorTexts_eq_map, SetTerm.factorTokens_eq_map]
    exact spells_intercalate separates_times (SetTerm.spellsAll factors h)
  | .minus a b, h => by
    obtain ⟨ha, hb⟩ := identified_append.mp h
    have hminus : Separates " \\ " [.symbol '\\'] := ⟨⟨rfl, fun _ => rfl⟩, _, _, rfl, rfl⟩
    exact (a.spells_of_identified ha).between hminus (b.spells_of_identified hb)
  | .builder index, h => (closed_brace.around (index.spells_of_identified h) separates_brace).spells
  | .subsets set size, h => by
    have hsubsets : Closed "subsets(" [.word "subsets", .symbol '('] := ⟨rfl, fun _ => rfl⟩
    have hset := hsubsets.around (set.spells_of_identified h) separates_comma
    exact ((hset.before (spells_nat size)).before separates_close).spells
  | .indexset family, h => by
    have hindexset : Closed "indexset(" [.word "indexset", .symbol '('] := ⟨rfl, fun _ => rfl⟩
    exact (hindexset.around (spells_identifier (identified_used.mp h).1) separates_close).spells

theorem SetTerm.spellsAll : (ss : List SetTerm) → Identified (SetTerm.allMentions ss) →
    ∀ s ∈ ss, Spells s.factorText s.factorToken
  | [], _, _, hmem => nomatch hmem
  | s :: ss, h, t, hmem => by
    obtain ⟨hs, hss⟩ := identified_append.mp h
    rcases List.mem_cons.mp hmem with heq | hmem
    · exact heq ▸ spells_factor (s.spells_of_identified hs)
    · exact SetTerm.spellsAll ss hss t hmem

theorem Index.spells_of_identified : (index : Index) → Identified index.mentions →
    Spells index.text index.tokens
  | .mk symbols domain condition, h => by
    obtain ⟨hbefore, hcondition⟩ := identified_append.mp h
    obtain ⟨hdomain, hsymbols⟩ := identified_append.mp hbefore
    have hopen : Closed "<" [.symbol '<'] := ⟨rfl, fun _ => rfl⟩
    have hin : Separates "> in " [.symbol '>', .word "in"] :=
      ⟨⟨rfl, fun _ => rfl⟩, _, _, rfl, rfl⟩
    have hhead := (hopen.around (spells_words (identified_bound.mp hsymbols)) hin).before
      (domain.spells_of_identified hdomain)
    exact condition.spellsBehind hcondition hhead

/-- A condition is written behind the domain that it filters. -/
theorem Condition.spellsBehind : (condition : Condition) → Identified condition.mentions →
    {text : String} → {tokens : List Token} → Spells text tokens →
      Spells (text ++ condition.text) (tokens ++ condition.tokens)
  | .always, _, text, tokens, hhead => by
    rw [Condition.text, Condition.tokens, String.append_empty, List.append_nil]
    exact hhead
  | .ne a b, h, text, tokens, hhead => by
    obtain ⟨ha, hb⟩ := identified_append.mp h
    have hne : Separates " != " [.symbol '!', .symbol '='] :=
      ⟨⟨rfl, fun _ => rfl⟩, _, _, rfl, rfl⟩
    exact spells_comparison hhead (a.spells_of_identified ha) hne (b.spells_of_identified hb)
  | .lt a b, h, text, tokens, hhead => by
    obtain ⟨ha, hb⟩ := identified_append.mp h
    have hlt : Separates " < " [.symbol '<'] := ⟨⟨rfl, fun _ => rfl⟩, _, _, rfl, rfl⟩
    exact spells_comparison hhead (a.spells_of_identified ha) hlt (b.spells_of_identified hb)

end

theorem Arith.spells (a : Arith) (h : a.legible vars = true) : Spells a.text a.tokens :=
  a.spells_of_identified (a.identified h)

theorem SetTerm.spells (s : SetTerm) (h : s.legible vars = true) : Spells s.text s.tokens :=
  s.spells_of_identified (s.identified h)

theorem Index.spells (index : Index) (h : index.legible vars = true) :
    Spells index.text index.tokens :=
  index.spells_of_identified (index.identified h)

/-- A term as an operand is enclosed if it is loose. -/
theorem Linear.textFor_operand (term : Linear) :
    term.textFor .operand = if term.isLoose then "(" ++ term.text ++ ")" else term.text := by
  cases term with
  | var name subscripts => cases subscripts <;> rfl
  | _ => rfl

/-- A weight stands behind a term as an operand. -/
theorem Linear.textFor_weighted (weight : Int) : (term : Linear) →
    term.textFor (.weighted weight) = term.textFor .operand ++ " * " ++ toString weight
  | .const _ | .var _ [] | .var _ (_ :: _) | .sum _ | .diff _ _ | .scaled _ _ | .weighted _ _
  | .abs _ => rfl
  | .sumOver index body => by
    simp only [Linear.textFor, body.textFor_weighted weight, String.append_assoc]

theorem spells_operand {term : Linear} (h : Spells term.text term.tokens) :
    Spells (term.textFor .operand) term.operandTokens := by
  rw [Linear.textFor_operand, Linear.operandTokens]
  split
  · exact spells_enclosed h
  · exact h

mutual

theorem Linear.spells_of_identified : (term : Linear) → Identified term.mentions →
    Spells term.text term.tokens
  | .const value, h => value.spells_of_identified h
  | .var name [], h => spells_identifier (identified_used.mp h).1
  | .var name (first :: subscripts), h => by
    obtain ⟨hname, hall⟩ := identified_used.mp h
    have hsubscripts : Spells (",".intercalate ((first :: subscripts).map Arith.text))
        (joinTokens (.symbol ',') ((first :: subscripts).map Arith.tokens)) :=
      spells_intercalate separates_tight (Arith.spellsAll _ hall)
    exact spells_member (spells_identifier hname) hsubscripts
  | .sum terms, h => by
    rw [Linear.tokens, Linear.tokensAll_eq_map, Linear.text, Linear.textFor, Linear.texts_eq_map]
    exact spells_intercalate separates_plus (Linear.spellsAll terms h)
  | .diff a b, h => by
    obtain ⟨ha, hb⟩ := identified_append.mp h
    exact (a.spells_of_identified ha).between separates_minus
      (spells_operand (b.spells_of_identified hb))
  | .scaled factor term, h => by
    obtain ⟨hfactor, hterm⟩ := identified_append.mp h
    exact (spells_enclose (factor.spells_of_identified hfactor) 3 factor.level).between
      separates_times (spells_operand (term.spells_of_identified hterm))
  | .weighted term weight, h => by
    have hspells := (spells_operand (term.spells_of_identified h)).between separates_times
      (spells_int weight)
    rw [← Linear.textFor_weighted] at hspells
    exact hspells
  | .sumOver index body, h => by
    obtain ⟨hindex, hbody⟩ := identified_append.mp h
    have hsum : Closed "sum " [.word "sum"] := ⟨rfl, fun _ => rfl⟩
    exact (hsum.around (index.spells_of_identified hindex) separates_colon).before
      (spells_operand (body.spells_of_identified hbody))
  | .abs term, h => by
    have habs : Closed "vabs(" [.word "vabs", .symbol '('] := ⟨rfl, fun _ => rfl⟩
    exact (habs.around (term.spells_of_identified h) separates_close).spells

theorem Linear.spellsAll : (terms : List Linear) → Identified (Linear.allMentions terms) →
    ∀ term ∈ terms, Spells term.text term.tokens
  | [], _, _, hmem => nomatch hmem
  | first :: terms, h, term, hmem => by
    obtain ⟨hfirst, hterms⟩ := identified_append.mp h
    rcases List.mem_cons.mp hmem with heq | hmem
    · exact heq ▸ first.spells_of_identified hfirst
    · exact Linear.spellsAll terms hterms term hmem

end

theorem Linear.spells (term : Linear) (h : term.legible vars = true) :
    Spells term.text term.tokens :=
  term.spells_of_identified (term.identified h)

end Spells

end RoundRobin.Zimpl
