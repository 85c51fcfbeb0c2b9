import Xv6.Kernel.CString

set_option autoImplicit false

namespace Xv6.Grep

open CString Computability

def star : UInt8 := 42
def dot : UInt8 := 46
def dollar : UInt8 := 36
def caret : UInt8 := 94

section Code

-- A `char*` is the list of the bytes from it on, with a NUL behind the last one. The first argument
-- bounds the calls and the rounds of the loops; `none` stands for a run that is not over by then.
mutual

def matchhere : Nat → List UInt8 → List UInt8 → Option Bool
  | 0, _, _ => none
  | fuel + 1, re, text =>
    if re.headD 0 = 0 then some true
    else if re.tail.headD 0 = star then matchstar fuel (re.headD 0) re.tail.tail text
    else if re.headD 0 = dollar ∧ re.tail.headD 0 = 0 then some (decide (text.headD 0 = 0))
    else if text.headD 0 ≠ 0 ∧ (re.headD 0 = dot ∨ re.headD 0 = text.headD 0) then
      matchhere fuel re.tail text.tail
    else some false

def matchstar : Nat → UInt8 → List UInt8 → List UInt8 → Option Bool
  | 0, _, _, _ => none
  | fuel + 1, c, re, text => do
      if ← matchhere fuel re text then
        some true
      else if text.headD 0 ≠ 0 ∧ (text.headD 0 = c ∨ c = dot) then
        matchstar fuel c re text.tail
      else some false

end

def matchLoop : Nat → List UInt8 → List UInt8 → Option Bool
  | 0, _, _ => none
  | fuel + 1, re, text => do
      if ← matchhere fuel re text then
        some true
      else if text.headD 0 ≠ 0 then matchLoop fuel re text.tail
      else some false

-- The function `match` of the source.
def matchText (fuel : Nat) (re text : List UInt8) : Option Bool :=
  if re.headD 0 = caret then matchhere fuel re.tail text else matchLoop fuel re text

end Code

section Reading

inductive Item
  | one (c : UInt8)
  | many (c : UInt8)

-- What a pattern asks for, apart from where its match may start. `ends` is set by a last '$'.
structure Reading where
  items : List Item
  ends : Bool

def Reading.push (item : Item) (reading : Reading) : Reading :=
  { reading with items := item :: reading.items }

def read : List UInt8 → Reading
  | [] => ⟨[], false⟩
  | [c] => if c = dollar then ⟨[], true⟩ else ⟨[.one c], false⟩
  | c :: d :: rest => if d = star then (read rest).push (.many c) else (read (d :: rest)).push (.one c)

def one (c : UInt8) : Language UInt8 := {word | ∃ b, (b = c ∨ c = dot) ∧ word = [b]}

def Item.language : Item → Language UInt8
  | .one c => Grep.one c
  | .many c => (Grep.one c)∗

def Reading.language (reading : Reading) : Language UInt8 :=
  (reading.items.map Item.language).prod * if reading.ends then 1 else ⊤

-- A leading '^' is taken off; without one any string may come before the match.
def language (re : List UInt8) : Language UInt8 :=
  if re.headD 0 = caret then (read re.tail).language else ⊤ * (read re).language

theorem language_push (item : Item) (reading : Reading) :
    (reading.push item).language = item.language * reading.language := by
  rw [Reading.push, Reading.language, Reading.language, List.map_cons, List.prod_cons, mul_assoc]

variable {c : UInt8} {word : List UInt8} {L : Language UInt8}

theorem mem_one_mul : word ∈ one c * L ↔ ∃ b rest, word = b :: rest ∧ (b = c ∨ c = dot) ∧ rest ∈ L := by
  rw [Language.mem_mul]
  constructor
  · rintro ⟨_, ⟨b, fits, rfl⟩, rest, inside, rfl⟩
    exact ⟨b, rest, rfl, fits, inside⟩
  · rintro ⟨b, rest, rfl, fits, inside⟩
    exact ⟨[b], ⟨b, fits, rfl⟩, rest, inside, rfl⟩

theorem mem_many_mul : word ∈ (one c)∗ * L ↔
      word ∈ L ∨ ∃ b rest, word = b :: rest ∧ (b = c ∨ c = dot) ∧ rest ∈ (one c)∗ * L := by
  rw [← mem_one_mul, ← mul_assoc, ← Language.mem_add]
  nth_rewrite 1 [← Language.one_add_self_mul_kstar_eq_kstar]
  rw [add_mul, one_mul]

theorem mem_top_mul : word ∈ ⊤ * L ↔ word ∈ L ∨ ∃ b rest, word = b :: rest ∧ rest ∈ ⊤ * L := by
  simp only [Language.mem_mul]
  constructor
  · rintro ⟨skipped, -, rest, inside, rfl⟩
    cases skipped with
    | nil => exact Or.inl inside
    | cons b more => exact Or.inr ⟨b, more ++ rest, rfl, more, trivial, rest, inside, rfl⟩
  · rintro (inside | ⟨b, _, rfl, more, -, rest, inside, rfl⟩)
    · exact ⟨[], trivial, word, inside, rfl⟩
    · exact ⟨b :: more, trivial, rest, inside, rfl⟩

end Reading

section Correct

def Decides (result : Option Bool) (accepted : Prop) : Prop := ∃ b, result = some b ∧ (b = true ↔ accepted)

theorem decides_some {b : Bool} {accepted : Prop} (agree : b = true ↔ accepted) : Decides (some b) accepted :=
  ⟨b, rfl, agree⟩

theorem decides_congr {result : Option Bool} {P Q : Prop} (decides : Decides result P) (agree : P ↔ Q) :
    Decides result Q := propext agree ▸ decides

-- A test made before the rest of the work, as a loop or a chain of `if`s makes it.
theorem decides_guard {test : Prop} [Decidable test] {later : Option Bool} {Q : Prop}
    (rest : test → Decides later Q) : Decides (if test then later else some false) (test ∧ Q) := by
  by_cases holds : test
  · rw [if_pos holds]
    exact decides_congr (rest holds) (and_iff_right holds).symm
  · rw [if_neg holds]
    exact decides_some ⟨fun impossible => absurd impossible Bool.false_ne_true, fun both => absurd both.1 holds⟩

theorem decides_round {here later : Option Bool} {P Q : Prop} (first : Decides here P) (rest : Decides later Q) :
    Decides (here >>= fun found => if found = true then some true else later) (P ∨ Q) := by
  obtain ⟨found, rfl, agree⟩ := first
  cases found with
  | true => exact decides_some ⟨fun _ => Or.inl (agree.mp rfl), fun _ => rfl⟩
  | false =>
    have failed : ¬P := fun holds => Bool.false_ne_true (agree.mpr holds)
    simpa [failed] using rest

variable {c : UInt8} {rest re text : List UInt8} {fuel : Nat}

theorem language_read_nil : (read []).language = ⊤ := by
  simp [read, Reading.language]

theorem language_read_dollar : (read [dollar]).language = 1 := by
  simp [read, Reading.language]

theorem language_read_many (c : UInt8) (rest : List UInt8) :
    (read (c :: star :: rest)).language = (one c)∗ * (read rest).language := by
  rw [read, if_pos rfl, language_push, Item.language]

theorem language_read_one (single : rest.headD 0 ≠ star) (inner : ¬(c = dollar ∧ rest = [])) :
    (read (c :: rest)).language = one c * (read rest).language := by
  cases rest with
  | nil =>
    have plain : read [c] = (read []).push (.one c) := if_neg fun last => inner ⟨last, rfl⟩
    rw [plain, language_push, Item.language]
  | cons d rest => rw [read, if_neg (show d ≠ star from single), language_push, Item.language]

def hereAccepts (re text : List UInt8) : Prop := CString.text text ∈ (read (CString.text re)).language

def starAccepts (c : UInt8) (re text : List UInt8) : Prop :=
  CString.text text ∈ (one c)∗ * (read (CString.text re)).language

def skipAccepts (re text : List UInt8) : Prop := CString.text text ∈ ⊤ * (read (CString.text re)).language

theorem starAccepts_iff : starAccepts c re text ↔
      hereAccepts re text ∨ (text.headD 0 ≠ 0 ∧ (text.headD 0 = c ∨ c = dot)) ∧ starAccepts c re text.tail := by
  rw [starAccepts, mem_many_mul]
  simp only [text_eq_cons_iff]
  refine or_congr Iff.rfl ⟨?_, fun ⟨⟨byte, fits⟩, inside⟩ => ⟨_, _, ⟨byte, rfl, rfl⟩, fits, inside⟩⟩
  rintro ⟨_, _, ⟨byte, rfl, rfl⟩, fits, inside⟩
  exact ⟨⟨byte, fits⟩, inside⟩

theorem skipAccepts_iff :
    skipAccepts re text ↔ hereAccepts re text ∨ text.headD 0 ≠ 0 ∧ skipAccepts re text.tail := by
  rw [skipAccepts, mem_top_mul]
  simp only [text_eq_cons_iff]
  refine or_congr Iff.rfl ⟨?_, fun ⟨byte, inside⟩ => ⟨_, _, ⟨byte, rfl, rfl⟩, inside⟩⟩
  rintro ⟨_, _, ⟨byte, rfl, rfl⟩, inside⟩
  exact ⟨byte, inside⟩

theorem hereAccepts_one (byte : re.headD 0 ≠ 0) (single : re.tail.headD 0 ≠ star)
    (inner : ¬(re.headD 0 = dollar ∧ re.tail.headD 0 = 0)) : hereAccepts re text ↔
      (text.headD 0 ≠ 0 ∧ (re.headD 0 = dot ∨ re.headD 0 = text.headD 0)) ∧ hereAccepts re.tail text.tail := by
  have single' : (CString.text re.tail).headD 0 ≠ star := by rwa [text_headD]
  have inner' : ¬(re.headD 0 = dollar ∧ CString.text re.tail = []) := by rwa [text_eq_nil_iff]
  rw [hereAccepts, text_of_byte byte, language_read_one single' inner', mem_one_mul]
  simp only [text_eq_cons_iff]
  constructor
  · rintro ⟨_, _, ⟨more, rfl, rfl⟩, fits, inside⟩
    exact ⟨⟨more, fits.symm.imp_right Eq.symm⟩, inside⟩
  · rintro ⟨⟨more, fits⟩, inside⟩
    exact ⟨_, _, ⟨more, rfl, rfl⟩, fits.symm.imp_left Eq.symm, inside⟩

-- By induction on the fuel, for both functions at once: each call shortens the pattern or the text,
-- except the one from matchstar to matchhere, which the shorter pattern of matchstar pays for.
theorem matchers_decide (fuel : Nat) : (∀ re text : List UInt8, re.length + text.length < fuel →
      Decides (matchhere fuel re text) (hereAccepts re text)) ∧
    ∀ (c : UInt8) (re text : List UInt8), re.length + text.length + 1 < fuel →
      Decides (matchstar fuel c re text) (starAccepts c re text) := by
  induction fuel with
  | zero =>
    exact ⟨fun _ _ enough => absurd enough (Nat.not_lt_zero _), fun _ _ _ enough => absurd enough (Nat.not_lt_zero _)⟩
  | succ fuel ih =>
    obtain ⟨here, starred⟩ := ih
    constructor
    · intro re text enough
      rw [matchhere]
      by_cases empty : re.headD 0 = 0
      · rw [if_pos empty, hereAccepts, text_of_nul empty, language_read_nil]
        exact decides_some ⟨fun _ => trivial, fun _ => rfl⟩
      have shorter := tail_shorter empty
      rw [if_neg empty]
      by_cases many : re.tail.headD 0 = star
      · have byte : re.tail.headD 0 ≠ 0 := by rw [many]; decide
        have shorter' := tail_shorter byte
        rw [if_pos many, hereAccepts, text_of_byte empty, text_of_byte byte, many, language_read_many]
        exact starred _ _ _ (by omega)
      rw [if_neg many]
      by_cases last : re.headD 0 = dollar ∧ re.tail.headD 0 = 0
      · rw [if_pos last, hereAccepts, text_of_byte empty, last.1, text_of_nul last.2, language_read_dollar,
          Language.mem_one]
        exact decides_some (decide_eq_true_iff.trans text_eq_nil_iff.symm)
      · rw [if_neg last]
        refine decides_congr (decides_guard fun step => here re.tail text.tail ?_)
          (hereAccepts_one empty many last).symm
        have := tail_shorter step.1
        omega
    · intro c re text enough
      rw [matchstar]
      have first := here re text (by omega)
      refine decides_congr (decides_round first (decides_guard fun step => starred c re text.tail ?_))
        starAccepts_iff.symm
      have := tail_shorter step.1
      omega

theorem matchLoop_decides (enough : re.length + text.length + 1 < fuel) :
    Decides (matchLoop fuel re text) (skipAccepts re text) := by
  induction fuel generalizing text with
  | zero => exact absurd enough (Nat.not_lt_zero _)
  | succ fuel ih =>
    rw [matchLoop]
    have first := (matchers_decide fuel).1 re text (by omega)
    refine decides_congr (decides_round first (decides_guard fun more => ih ?_)) skipAccepts_iff.symm
    have := tail_shorter more
    omega

theorem matchText_decides (enough : re.length + text.length + 1 < fuel) :
    Decides (matchText fuel re text) (CString.text text ∈ language (CString.text re)) := by
  unfold matchText language
  rw [text_headD]
  by_cases anchored : re.headD 0 = caret
  · have byte : re.headD 0 ≠ 0 := by rw [anchored]; decide
    have := tail_shorter byte
    rw [if_pos anchored, if_pos anchored, text_of_byte byte]
    exact (matchers_decide fuel).1 re.tail text (by omega)
  · rw [if_neg anchored, if_neg anchored]
    exact matchLoop_decides enough

-- Two calls or rounds more than the bytes of the two strings always suffice.
theorem match_correct (re text : List UInt8) (extra : Nat) :
    ∃ found, matchText (re.length + text.length + 2 + extra) re text = some found ∧
      (found = true ↔ CString.text text ∈ language (CString.text re)) :=
  matchText_decides (by omega)

-- "^*" is an anchored star that stands for itself; "$*" and "**" repeat a dollar and a star.
example : matchText 9 [caret, star] [star, dot] = some true ∧ matchText 9 [caret, star] [dot, star] = some false ∧
    matchText 9 [caret, dollar, star, dot, dollar] [dollar, dollar, dot] = some true ∧
    matchText 9 [caret, star, star, dollar] [star, star, dot] = some false := by decide

end Correct

end Xv6.Grep
