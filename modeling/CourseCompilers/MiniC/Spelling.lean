import CourseCompilers.MiniC.Comments

/-! Texts of MiniC tokens: however tokens are spelled and spaced, the scanner finds them
again. -/

namespace CourseCompilers.MiniC
open Lib LexRule

/-! ## Spelled tokens -/

/-- The tokens that are always spelled alike, in the order of their rules. -/
def reserved : List (String × Token) :=
  [(";", .semicolon), (":", .colon), (",", .comma), ("\x7b", .lbrace), ("\x7d", .rbrace),
   ("(", .lparen), (")", .rparen), ("[", .lbracket), ("]", .rbracket),
   ("+", .plus), ("-", .minus), ("*", .star), ("/", .div), ("%", .mod),
   ("<=", .lte), (">=", .gte), ("<", .lt), (">", .gt), ("==", .eq),
   ("!=", .neq), ("!", .not), ("=", .assign), ("->", .arrow), (".", .dot),
   ("&", .ampersand), ("&&", .logicalAnd), ("||", .logicalOr), ("|", .bitwiseOr),
   ("^", .bitwiseXor), ("<<", .lshift), (">>", .rshift), ("~", .bitwiseInvert),
   ("?", .questionMark),
   ("float", .floatKeyword), ("int", .intKeyword), ("void", .voidKeyword),
   ("for", .forKeyword), ("while", .whileKeyword), ("if", .ifKeyword),
   ("else", .elseKeyword), ("switch", .switchKeyword), ("case", .caseKeyword),
   ("do", .doKeyword), ("struct", .structKeyword), ("sizeof", .sizeofKeyword),
   ("return", .returnKeyword), ("break", .breakKeyword), ("continue", .continueKeyword)]

def isDigit (c : Char) : Bool := '0' ≤ c && c ≤ '9'

/-- What `[a-zA-Z_0-9]` matches. -/
def isWordChar (c : Char) : Bool := letter c || isDigit c

def floatPattern : Pattern Char :=
  .alt (.seq (.plus digit) (.seq (.word ['.']) (.star digit)))
    (.seq (.star digit) (.seq (.word ['.']) (.plus digit)))

/-- The rules for spaces and for some reserved words. -/
def firstRules (words : List (String × Token)) : List LexRule :=
  [(space, .skip), (newline, .newline)] ++ words.map fun p => fixed p.1 p.2

/-- The rules after those. -/
def lastRules : List LexRule :=
  [(.star digit, .token .constantInteger), (floatPattern, .token .constantFloat),
   (ident, .token .id), (.word ['/', '*'], .begin .comment), (.cls (· ≠ '\n'), .lexicalError)]

theorem initialRules_eq : initialRules = firstRules reserved ++ lastRules := rfl

/-- How a token is spelled. -/
inductive Written : Token → List Char → Prop
  | fixed {text : String} {t : Token} : (text, t) ∈ reserved → Written t text.toList
  | integer {w : List Char} : w ≠ [] → (∀ c ∈ w, isDigit c = true) →
      Written (.constantInteger (String.ofList w)) w
  | float {a b : List Char} : (∀ c ∈ a, isDigit c = true) → (∀ c ∈ b, isDigit c = true) →
      (a ≠ [] ∨ b ≠ []) →
      Written (.constantFloat (String.ofList (a ++ '.' :: b))) (a ++ '.' :: b)
  | id {c : Char} {cs : List Char} : letter c = true → (∀ d ∈ cs, isWordChar d = true) →
      (∀ p ∈ reserved, p.1.toList ≠ c :: cs) → Written (.id (String.ofList (c :: cs))) (c :: cs)

/-- The keywords and identifiers. -/
def Token.isWord : Token → Bool
  | .floatKeyword | .intKeyword | .voidKeyword | .forKeyword | .whileKeyword | .ifKeyword => true
  | .elseKeyword | .switchKeyword | .caseKeyword | .doKeyword | .structKeyword => true
  | .sizeofKeyword | .returnKeyword | .breakKeyword | .continueKeyword | .id _ => true
  | _ => false

/-- The characters that make another operator of one, or a comment. -/
def Token.extensions : Token → List Char
  | .lt => ['=', '<']
  | .gt => ['=', '>']
  | .not | .assign => ['=']
  | .minus => ['>']
  | .ampersand => ['&']
  | .bitwiseOr => ['|']
  | .div => ['*']
  | _ => []

/-- Whether a character right after the token is taken for a part of it or of something
longer. -/
def Token.continues (t : Token) (c : Char) : Bool :=
  match t with
  | .constantInteger _ => isDigit c || c = '.'
  | .constantFloat _ | .dot => isDigit c
  | t => if t.isWord then isWordChar c else c ∈ t.extensions

/-- Tokens with blanks and ends of lines between them, where they would run together
at least. -/
inductive Spells : List Char → List Token → Prop
  | nil : Spells [] []
  | blank {c : Char} {cs : List Char} {ts : List Token} : isBlank c = true → Spells cs ts →
      Spells (c :: cs) ts
  | newline {c : Char} {cs : List Char} {ts : List Token} : c = '\n' ∨ c = '\r' → Spells cs ts →
      Spells (c :: cs) ts
  | token {t : Token} {w cs : List Char} {ts : List Token} : Written t w →
      (∀ c ∈ cs.head?, t.continues c = false) → Spells cs ts → Spells (w ++ cs) (t :: ts)

/-! ## What the rules match -/

theorem mem_language_digits {w : List Char} :
    w ∈ (Pattern.star digit).language ↔ ∀ c ∈ w, isDigit c = true := Pattern.mem_language_star_cls

theorem mem_language_ident {w : List Char} :
    w ∈ ident.language ↔ ∃ c cs, w = c :: cs ∧ letter c = true ∧ ∀ d ∈ cs, isWordChar d = true := by
  rw [ident, Pattern.mem_language_seq]
  constructor
  · rintro ⟨_, ⟨c, hc, rfl⟩, cs, hcs, rfl⟩
    exact ⟨c, cs, rfl, hc, Pattern.mem_language_star_cls.mp hcs⟩
  · rintro ⟨c, cs, rfl, hc, hcs⟩
    exact ⟨[c], ⟨c, hc, rfl⟩, cs, Pattern.mem_language_star_cls.mpr hcs, rfl⟩

theorem mem_language_float {w : List Char} :
    w ∈ floatPattern.language ↔ ∃ a b, w = a ++ '.' :: b ∧ (∀ c ∈ a, isDigit c = true) ∧
      (∀ c ∈ b, isDigit c = true) ∧ (a ≠ [] ∨ b ≠ []) := by
  have hplus : ∀ u, u ∈ (Pattern.plus digit).language ↔ u ≠ [] ∧ ∀ c ∈ u, isDigit c = true :=
    fun u => Pattern.mem_language_plus_cls
  simp only [floatPattern, Pattern.mem_language_alt, Pattern.mem_language_seq,
    Pattern.mem_language_word, hplus, mem_language_digits]
  constructor
  · rintro (⟨a, ⟨hne, ha⟩, _, ⟨_, rfl, b, hb, rfl⟩, rfl⟩ |
      ⟨a, ha, _, ⟨_, rfl, b, ⟨hne, hb⟩, rfl⟩, rfl⟩)
    · exact ⟨a, b, rfl, ha, hb, .inl hne⟩
    · exact ⟨a, b, rfl, ha, hb, .inr hne⟩
  · rintro ⟨a, b, rfl, ha, hb, hne | hne⟩
    · exact .inl ⟨a, ⟨hne, ha⟩, _, ⟨_, rfl, b, hb, rfl⟩, rfl⟩
    · exact .inr ⟨a, ha, _, ⟨_, rfl, b, ⟨hne, hb⟩, rfl⟩, rfl⟩

theorem mem_language_space {w : List Char} :
    w ∈ space.language ↔ ∀ c ∈ w, isBlank c = true := Pattern.mem_language_star_cls

/-! ## Classes of characters -/

theorem isDigit_of_letter {c : Char} (h : letter c = true) : isDigit c = false := by
  simp only [letter, isDigit, Bool.or_eq_true, Bool.and_eq_true, decide_eq_true_eq, Char.le_def,
    UInt32.le_iff_toNat_le, Bool.and_eq_false_iff, decide_eq_false_iff_not] at h ⊢
  rcases h with (h | h) | rfl
  · have hlow : 'a'.val.toNat = 97 := rfl
    have hhigh : '9'.val.toNat = 57 := rfl
    omega
  · have hlow : 'A'.val.toNat = 65 := rfl
    have hhigh : '9'.val.toNat = 57 := rfl
    omega
  · decide

theorem isWordChar_of_isDigit {c : Char} (h : isDigit c = true) : isWordChar c = true := by
  simp [isWordChar, h]

theorem isWordChar_of_letter {c : Char} (h : letter c = true) : isWordChar c = true := by
  simp [isWordChar, h]

theorem isBlank_of_isWordChar {c : Char} (h : isWordChar c = true) : isBlank c = false := by
  by_contra hblank
  rw [Bool.not_eq_false, isBlank, Bool.or_eq_true, decide_eq_true_eq, decide_eq_true_eq] at hblank
  rcases hblank with rfl | rfl <;> cases h

def isSpace (c : Char) : Bool := isBlank c || c = '\n' || c = '\r'

theorem isSpace_of_isWordChar {c : Char} (h : isWordChar c = true) : isSpace c = false := by
  rw [isSpace, isBlank_of_isWordChar h, Bool.false_or, Bool.or_eq_false_iff,
    decide_eq_false_iff_not, decide_eq_false_iff_not]
  constructor
  · rintro rfl
    cases h
  · rintro rfl
    cases h

/-! ## The reserved words -/

theorem reserved_ne_nil : ∀ p ∈ reserved, p.1.toList ≠ [] := by
  decide

theorem reserved_chars :
    ∀ p ∈ reserved, (p.1.toList.all fun c => !isSpace c && !isDigit c) = true := by
  decide

theorem reserved_dot : ∀ p ∈ reserved, ('.' ∈ p.1.toList ↔ p.2 = .dot) ∧
    (p.2 = .dot → p.1.toList = ['.']) := by
  decide

theorem reserved_letters : ∀ p ∈ reserved, p.1.toList.any letter = p.2.isWord ∧
    p.1.toList.all letter = p.2.isWord := by
  decide

/-- A reserved word goes on in a longer one, or in a comment, only as `continues` says. -/
theorem reserved_longer : ∀ p ∈ reserved, ∀ u ∈ ['/', '*'] :: reserved.map (·.1.toList),
    p.1.toList <+: u → (u.drop p.1.toList.length).head?.all p.2.continues = true := by
  decide +kernel

theorem reserved_nodup : (reserved.map (·.1.toList)).Nodup := by
  decide +kernel

theorem reserved_isSpace {p : String × Token} (hp : p ∈ reserved) :
    ∀ c ∈ p.1.toList, isSpace c = false ∧ isDigit c = false := by
  intro c hc
  have hchars := List.all_eq_true.mp (reserved_chars p hp) c hc
  rwa [Bool.and_eq_true, Bool.not_eq_true', Bool.not_eq_true'] at hchars

theorem letter_of_reserved {p : String × Token} (hp : p ∈ reserved) {d : Char}
    (hd : d ∈ p.1.toList) (hletter : letter d = true) :
    p.2.isWord = true ∧ ∀ c ∈ p.1.toList, letter c = true := by
  obtain ⟨hany, hall⟩ := reserved_letters p hp
  have hword : p.2.isWord = true := hany ▸ List.any_eq_true.mpr ⟨d, hd, hletter⟩
  exact ⟨hword, List.all_eq_true.mp (hall.trans hword)⟩

theorem not_isDigit_of_mem_words {u : List Char}
    (hu : u ∈ ['/', '*'] :: reserved.map (·.1.toList)) : ∀ c ∈ u, isDigit c = false := by
  rcases List.mem_cons.mp hu with rfl | hu
  · intro c hc
    simp only [List.mem_cons, List.not_mem_nil, or_false] at hc
    rcases hc with rfl | rfl <;> rfl
  · obtain ⟨p, hp, rfl⟩ := List.mem_map.mp hu
    exact fun c hc => (reserved_isSpace hp c hc).2

theorem eq_dot_of_mem_words {u : List Char}
    (hu : u ∈ ['/', '*'] :: reserved.map (·.1.toList)) (hdot : '.' ∈ u) : u = ['.'] := by
  rcases List.mem_cons.mp hu with rfl | hu
  · simp at hdot
  · obtain ⟨p, hp, rfl⟩ := List.mem_map.mp hu
    obtain ⟨hiff, heq⟩ := reserved_dot p hp
    exact heq (hiff.mp hdot)

theorem letter_of_mem_words {d : Char} {ds : List Char}
    (hu : d :: ds ∈ ['/', '*'] :: reserved.map (·.1.toList)) (hd : letter d = true) :
    ∀ c ∈ d :: ds, letter c = true := by
  rcases List.mem_cons.mp hu with heq | hu
  · rw [(List.cons.inj heq).1] at hd
    cases hd
  · obtain ⟨p, hp, heq⟩ := List.mem_map.mp hu
    rw [← heq]
    exact (letter_of_reserved hp (by simp [heq]) hd).2

theorem append_dot_inj {a a' b b' : List Char} (ha : ∀ d ∈ a, isDigit d = true)
    (ha' : ∀ d ∈ a', isDigit d = true) (h : a ++ '.' :: b = a' ++ '.' :: b') : b = b' := by
  induction a generalizing a' with
  | nil =>
    cases a' with
    | nil => exact (List.cons.inj h).2
    | cons d a' =>
      rw [← (List.cons.inj h).1] at ha'
      cases ha' '.' List.mem_cons_self
  | cons d a ih =>
    cases a' with
    | nil =>
      rw [(List.cons.inj h).1] at ha
      cases ha '.' List.mem_cons_self
    | cons d' a' =>
      rw [List.forall_mem_cons] at ha ha'
      exact ih ha.2 ha'.2 (List.cons.inj h).2

theorem continues_of_isWord {t : Token} (ht : t.isWord = true) (c : Char) :
    t.continues c = isWordChar c := by
  cases t <;> first | rfl | cases ht

/-! ## No rule goes beyond a token -/

/-- The texts that some rule matches. -/
theorem matched_cases {r : LexRule} (hr : r ∈ initialRules) {u : List Char}
    (hu : u ∈ r.1.language) :
    (∀ c ∈ u, isBlank c = true) ∨ (∃ c, u = [c]) ∨ u ∈ ['/', '*'] :: reserved.map (·.1.toList) ∨
      (∀ c ∈ u, isDigit c = true) ∨ u ∈ floatPattern.language ∨ u ∈ ident.language := by
  rw [initialRules_eq, firstRules, lastRules] at hr
  simp only [List.mem_append, List.mem_cons, List.mem_map, List.not_mem_nil, or_false] at hr
  rcases hr with ((rfl | rfl) | ⟨p, hp, rfl⟩) | rfl | rfl | rfl | rfl | rfl
  · exact .inl (mem_language_space.mp hu)
  · obtain ⟨c, -, rfl⟩ := hu
    exact .inr (.inl ⟨c, rfl⟩)
  · rw [fixed, Pattern.mem_language_word] at hu
    exact .inr (.inr (.inl (hu ▸ List.mem_cons_of_mem _ (List.mem_map_of_mem hp))))
  · exact .inr (.inr (.inr (.inl (mem_language_digits.mp hu))))
  · exact .inr (.inr (.inr (.inr (.inl hu))))
  · exact .inr (.inr (.inr (.inr (.inr hu))))
  · rw [Pattern.mem_language_word] at hu
    exact .inr (.inr (.inl (hu ▸ List.mem_cons_self)))
  · obtain ⟨c, -, rfl⟩ := hu
    exact .inr (.inl ⟨c, rfl⟩)

/-- What is longer than a word of one character or more is not one character. -/
theorem append_cons_ne_singleton {w us : List Char} {c d : Char} (hw : w ≠ []) :
    w ++ c :: us ≠ [d] := by
  intro heq
  cases w with
  | nil => exact hw rfl
  | cons e w =>
    have htail := (List.cons.inj heq).2
    simp at htail

section
variable {c : Char} {us : List Char} {r : LexRule} (hr : r ∈ initialRules)
include hr

theorem fixed_not_longer {text : String} {t : Token} (ht : (text, t) ∈ reserved)
    (hc : t.continues c = false) : text.toList ++ c :: us ∉ r.1.language := by
  intro hu
  have hne := reserved_ne_nil _ ht
  obtain ⟨d, ds, hd⟩ := List.exists_cons_of_ne_nil hne
  have hmem : d ∈ text.toList := by simp [hd]
  obtain ⟨hspace, hdigit⟩ := reserved_isSpace ht d hmem
  rcases matched_cases hr hu with h | ⟨e, h⟩ | h | h | h | h
  · rw [isSpace, h d (List.mem_append_left _ hmem)] at hspace
    cases hspace
  · exact append_cons_ne_singleton hne h
  · have hlonger := reserved_longer _ ht _ h (List.prefix_append _ _)
    rw [List.drop_left, List.head?_cons, Option.all_some, hc] at hlonger
    cases hlonger
  · rw [h d (List.mem_append_left _ hmem)] at hdigit
    cases hdigit
  · obtain ⟨a, b, heq, ha, hb, -⟩ := mem_language_float.mp h
    cases a with
    | nil =>
      rw [hd] at heq
      obtain ⟨rfl, htail⟩ := List.cons.inj heq
      obtain ⟨hiff, hsingle⟩ := reserved_dot _ ht
      have hdot : t = .dot := hiff.mp hmem
      rw [hd] at hsingle
      obtain ⟨-, rfl⟩ := List.cons.inj (hsingle hdot)
      obtain rfl : c :: us = b := htail
      rw [hdot, Token.continues, hb c List.mem_cons_self] at hc
      cases hc
    | cons e a =>
      rw [hd] at heq
      rw [(List.cons.inj heq).1, ha e List.mem_cons_self] at hdigit
      cases hdigit
  · obtain ⟨e, es, heq, he, hes⟩ := mem_language_ident.mp h
    rw [hd] at heq
    obtain ⟨rfl, rfl⟩ := List.cons.inj heq
    rw [continues_of_isWord (letter_of_reserved ht hmem he).1, hes c (by simp)] at hc
    cases hc

theorem integer_not_longer {w : List Char} (hne : w ≠ []) (hw : ∀ d ∈ w, isDigit d = true)
    (hc : (isDigit c || c = '.') = false) : w ++ c :: us ∉ r.1.language := by
  intro hu
  obtain ⟨d, ds, rfl⟩ := List.exists_cons_of_ne_nil hne
  have hdigit := hw d List.mem_cons_self
  rw [Bool.or_eq_false_iff, decide_eq_false_iff_not] at hc
  rcases matched_cases hr hu with h | ⟨e, h⟩ | h | h | h | h
  · have hblank := isBlank_of_isWordChar (isWordChar_of_isDigit hdigit)
    rw [h d (by simp)] at hblank
    cases hblank
  · exact append_cons_ne_singleton hne h
  · have hnot := not_isDigit_of_mem_words h d (by simp)
    rw [hdigit] at hnot
    cases hnot
  · rw [h c (by simp)] at hc
    cases hc.1
  · obtain ⟨a, b, heq, ha, hb, -⟩ := mem_language_float.mp h
    have hmem : c ∈ a ++ '.' :: b := heq ▸ by simp
    simp only [List.mem_append, List.mem_cons] at hmem
    rcases hmem with hmem | hmem | hmem
    · rw [ha c hmem] at hc
      cases hc.1
    · exact hc.2 hmem
    · rw [hb c hmem] at hc
      cases hc.1
  · obtain ⟨e, es, heq, he, -⟩ := mem_language_ident.mp h
    obtain ⟨rfl, -⟩ := List.cons.inj heq
    rw [isDigit_of_letter he] at hdigit
    cases hdigit

theorem float_not_longer {a b : List Char} (ha : ∀ d ∈ a, isDigit d = true)
    (hc : isDigit c = false) :
    (a ++ '.' :: b) ++ c :: us ∉ r.1.language := by
  intro hu
  have hdot : '.' ∈ (a ++ '.' :: b) ++ c :: us := by simp
  rcases matched_cases hr hu with h | ⟨e, h⟩ | h | h | h | h
  · cases h '.' hdot
  · exact append_cons_ne_singleton (by simp) h
  · have hlen := congrArg List.length (eq_dot_of_mem_words h hdot)
    simp only [List.length_append, List.length_cons, List.length_nil] at hlen
    omega
  · cases h '.' hdot
  · obtain ⟨a', b', heq, ha', hb', -⟩ := mem_language_float.mp h
    rw [List.append_assoc, List.cons_append] at heq
    obtain rfl := append_dot_inj ha ha' heq
    rw [hb' c (by simp)] at hc
    cases hc
  · obtain ⟨e, es, heq, he, hes⟩ := mem_language_ident.mp h
    rw [heq, List.mem_cons] at hdot
    rcases hdot with rfl | hdot
    · cases he
    · cases hes _ hdot

theorem id_not_longer {d : Char} {ds : List Char} (hd : letter d = true)
    (hc : isWordChar c = false) : (d :: ds) ++ c :: us ∉ r.1.language := by
  intro hu
  have hword := isWordChar_of_letter hd
  rcases matched_cases hr hu with h | ⟨e, h⟩ | h | h | h | h
  · have hblank := isBlank_of_isWordChar hword
    rw [h d (by simp)] at hblank
    cases hblank
  · exact append_cons_ne_singleton (by simp) h
  · have hletter := letter_of_mem_words h hd c (by simp)
    rw [isWordChar_of_letter hletter] at hc
    cases hc
  · have hnot := isDigit_of_letter hd
    rw [h d (by simp)] at hnot
    cases hnot
  · obtain ⟨a, b, heq, ha, hb, -⟩ := mem_language_float.mp h
    cases a with
    | nil =>
      rw [(List.cons.inj heq).1] at hd
      cases hd
    | cons e a =>
      have hnot := isDigit_of_letter hd
      rw [(List.cons.inj heq).1, ha e List.mem_cons_self] at hnot
      cases hnot
  · obtain ⟨e, es, heq, he, hes⟩ := mem_language_ident.mp h
    obtain ⟨rfl, rfl⟩ := List.cons.inj heq
    rw [hes c (by simp)] at hc
    cases hc

end

/-- In front of what does not continue it no rule matches more than a token. -/
theorem Written.not_longer {t : Token} {w : List Char} (ht : Written t w) {c : Char}
    (hc : t.continues c = false) {us : List Char} {r : LexRule} (hr : r ∈ initialRules) :
    w ++ c :: us ∉ r.1.language := by
  cases ht with
  | fixed ht => exact fixed_not_longer hr ht hc
  | integer hne hw => exact integer_not_longer hr hne hw hc
  | float ha hb hne => exact float_not_longer hr ha hc
  | id hd hds hres =>
    rw [continues_of_isWord rfl] at hc
    exact id_not_longer hr hd hc

theorem Written.ne_nil {t : Token} {w : List Char} (ht : Written t w) : w ≠ [] := by
  cases ht with
  | fixed ht => exact reserved_ne_nil _ ht
  | integer hne _ => exact hne
  | float | id => simp

/-! ## The rule of a token -/

theorem Written.isSpace {t : Token} {w : List Char} (ht : Written t w) :
    ∀ c ∈ w, isSpace c = false := by
  cases ht with
  | fixed ht => exact fun c hc => (reserved_isSpace ht c hc).1
  | integer _ hw => exact fun c hc => isSpace_of_isWordChar (isWordChar_of_isDigit (hw c hc))
  | float ha hb _ =>
    intro c hc
    rw [List.mem_append, List.mem_cons] at hc
    rcases hc with hc | rfl | hc
    · exact isSpace_of_isWordChar (isWordChar_of_isDigit (ha c hc))
    · rfl
    · exact isSpace_of_isWordChar (isWordChar_of_isDigit (hb c hc))
  | id hd hds _ =>
    intro c hc
    rcases List.mem_cons.mp hc with rfl | hc
    · exact isSpace_of_isWordChar (isWordChar_of_letter hd)
    · exact isSpace_of_isWordChar (hds c hc)

/-- The first rules match spaces and reserved words only. -/
theorem notMem_first {w : List Char} (hne : w ≠ []) (hspace : ∀ c ∈ w, isSpace c = false)
    {words : List (String × Token)} (hwords : ∀ p ∈ words, p.1.toList ≠ w) {r : LexRule}
    (hr : r ∈ firstRules words) : w ∉ r.1.language := by
  intro hu
  obtain ⟨c, cs, rfl⟩ := List.exists_cons_of_ne_nil hne
  have hc := hspace c List.mem_cons_self
  rw [MiniC.isSpace, Bool.or_eq_false_iff, Bool.or_eq_false_iff] at hc
  simp only [firstRules, List.mem_append, List.mem_cons, List.mem_map, List.not_mem_nil,
    or_false] at hr
  rcases hr with (rfl | rfl) | ⟨p, hp, rfl⟩
  · rw [mem_language_space.mp hu c List.mem_cons_self] at hc
    cases hc.1.1
  · obtain ⟨d, hd, heq⟩ := hu
    obtain ⟨rfl, -⟩ := List.cons.inj heq
    rw [Bool.or_eq_true, ← Bool.not_eq_false, ← Bool.not_eq_false] at hd
    exact hd.elim (fun h => h hc.1.2) fun h => h hc.2
  · rw [fixed, Pattern.mem_language_word] at hu
    exact hwords p hp hu.symm

/-- The first rule that matches a token returns it. -/
theorem Written.rule {t : Token} {w : List Char} (ht : Written t w) :
    ∃ before p of after, initialRules = before ++ (p, .token of) :: after ∧ w ∈ p.language ∧
      (∀ r ∈ before, w ∉ r.1.language) ∧ of (String.ofList w) = t := by
  have hne := ht.ne_nil
  have hspace := ht.isSpace
  cases ht with
  | @fixed text t ht =>
    obtain ⟨words, words', hsplit⟩ := List.append_of_mem ht
    refine ⟨firstRules words, _, fun _ => t,
      (words'.map fun p => LexRule.fixed p.1 p.2) ++ lastRules, ?_,
      Pattern.mem_language_word.mpr rfl, fun r hr => ?_, rfl⟩
    · rw [initialRules_eq, firstRules, firstRules, hsplit, List.map_append, List.map_cons]
      simp only [List.append_assoc, List.cons_append]
      rfl
    · refine notMem_first hne hspace (fun p hp heq => ?_) hr
      have hnodup := reserved_nodup
      rw [hsplit, List.map_append, List.nodup_append] at hnodup
      exact hnodup.2.2 _ (List.mem_map_of_mem hp) _ List.mem_cons_self heq
  | integer _ hw =>
    refine ⟨firstRules reserved, _, _, lastRules.drop 1, rfl, mem_language_digits.mpr hw,
      fun r hr => notMem_first hne hspace (fun p hp heq => ?_) hr, rfl⟩
    obtain ⟨c, cs, rfl⟩ := List.exists_cons_of_ne_nil hne
    have hdigit := (reserved_isSpace hp c (by simp [heq])).2
    rw [hw c List.mem_cons_self] at hdigit
    cases hdigit
  | float ha hb hne' =>
    refine ⟨firstRules reserved ++ lastRules.take 1, _, _, lastRules.drop 2, rfl,
      mem_language_float.mpr ⟨_, _, rfl, ha, hb, hne'⟩, fun r hr hu => ?_, rfl⟩
    rcases List.mem_append.mp hr with hr | hr
    · refine notMem_first hne hspace (fun p hp heq => ?_) hr hu
      have hdot := eq_dot_of_mem_words (List.mem_cons_of_mem _ (List.mem_map_of_mem hp))
        (by simp [heq])
      rw [heq, List.append_eq_singleton_iff] at hdot
      simp at hdot
      exact hne'.elim (fun h => h hdot.1) fun h => h hdot.2
    · cases List.mem_singleton.mp hr
      cases mem_language_digits.mp hu '.' (by simp)
  | @id d ds hd hds hres =>
    refine ⟨firstRules reserved ++ lastRules.take 2, _, _, lastRules.drop 3, rfl,
      mem_language_ident.mpr ⟨_, _, rfl, hd, hds⟩, fun r hr hu => ?_, rfl⟩
    have hdigit := isDigit_of_letter hd
    rcases List.mem_append.mp hr with hr | hr
    · exact notMem_first hne hspace hres hr hu
    · simp only [lastRules, List.take_succ_cons, List.take_zero, List.mem_cons, List.not_mem_nil,
        or_false] at hr
      rcases hr with rfl | rfl
      · rw [mem_language_digits.mp hu d List.mem_cons_self] at hdigit
        cases hdigit
      · obtain ⟨a, b, heq, ha, -, -⟩ := mem_language_float.mp hu
        cases a with
        | nil =>
          rw [(List.cons.inj heq).1] at hd
          cases hd
        | cons e a =>
          rw [(List.cons.inj heq).1, ha e List.mem_cons_self] at hdigit
          cases hdigit

/-- The scanner takes a token where it ends. -/
theorem firstLongest_token {t : Token} {w cs : List Char} (ht : Written t w)
    (hcs : ∀ c ∈ cs.head?, t.continues c = false) :
    ∃ of, Pattern.firstLongest (w ++ cs) StartCondition.initial.rules =
      some (w.length, .token of) ∧ of (String.ofList w) = t := by
  obtain ⟨before, p, of, after, hrules, hp, hbefore, hof⟩ := ht.rule
  refine ⟨of, ?_, hof⟩
  rw [StartCondition.rules, hrules]
  refine Pattern.firstLongest_of_word hp hbefore fun c hc r hr us => ?_
  exact ht.not_longer (hcs c hc) (hrules ▸ hr)

/-- Ends of lines are matched one by one. -/
theorem newline_not_longer {c d : Char} (hc : c = '\n' ∨ c = '\r') {us : List Char} {r : LexRule}
    (hr : r ∈ initialRules) : [c] ++ d :: us ∉ r.1.language := by
  intro hu
  have hclass : isSpace c = true ∧ isBlank c = false ∧ isWordChar c = false ∧ c ≠ '.' := by
    rcases hc with rfl | rfl <;> decide
  obtain ⟨hspace, hblank, hword, hdot⟩ := hclass
  have hnot : isDigit c = false ∧ letter c = false := by
    rwa [isWordChar, Bool.or_eq_false_iff, and_comm] at hword
  rcases matched_cases hr hu with h | ⟨e, h⟩ | h | h | h | h
  · rw [h c (by simp)] at hblank
    cases hblank
  · exact append_cons_ne_singleton (by simp) h
  · rcases List.mem_cons.mp h with heq | h
    · rw [(List.cons.inj heq).1] at hspace
      cases hspace
    · obtain ⟨p, hp, heq⟩ := List.mem_map.mp h
      rw [(reserved_isSpace hp c (by simp [heq])).1] at hspace
      cases hspace
  · rw [h c (by simp)] at hnot
    cases hnot.1
  · obtain ⟨a, b, heq, ha, -⟩ := mem_language_float.mp h
    cases a with
    | nil => exact hdot (List.cons.inj heq).1
    | cons e a =>
      rw [(List.cons.inj heq).1, ha e List.mem_cons_self] at hnot
      cases hnot.1
  · obtain ⟨e, es, heq, he, -⟩ := mem_language_ident.mp h
    rw [(List.cons.inj heq).1, he] at hnot
    cases hnot.2

theorem scanAt_newline {c : Char} (hc : c = '\n' ∨ c = '\r') (line : Nat) (cs : List Char) :
    scanAt .initial line 0 (c :: cs) = scanAt .initial (line + 1) 0 cs := by
  have hrules : initialRules = [(space, .skip)] ++ (newline, .newline) :: initialRules.drop 2 := rfl
  have hwin : Pattern.firstLongest ([c] ++ cs) StartCondition.initial.rules =
      some (1, .newline) := by
    rw [StartCondition.rules, hrules]
    refine Pattern.firstLongest_of_word ⟨c, by rcases hc with rfl | rfl <;> rfl, rfl⟩ ?_ ?_
    · intro r hr hu
      cases List.mem_singleton.mp hr
      have hblank := mem_language_space.mp hu c List.mem_cons_self
      rcases hc with rfl | rfl <;> cases hblank
    · exact fun d _ r hr us => newline_not_longer hc (hrules ▸ hr)
  rw [List.singleton_append] at hwin
  simp only [scanAt, hwin]

/-- A token that is spelled out is returned. -/
theorem scanAt_token {t : Token} {w cs : List Char} (ht : Written t w)
    (hcs : ∀ c ∈ cs.head?, t.continues c = false) (line : Nat) :
    ((scanAt .initial line 0 (w ++ cs)).tokens.map Located.token =
        t :: (scanAt .initial line 0 cs).tokens.map Located.token) ∧
      (scanAt .initial line 0 (w ++ cs)).ending = (scanAt .initial line 0 cs).ending := by
  obtain ⟨of, hwin, hof⟩ := firstLongest_token ht hcs
  obtain ⟨c, w, rfl⟩ := List.exists_cons_of_ne_nil ht.ne_nil
  rw [List.cons_append] at hwin ⊢
  have hstep : scanAt .initial line w.length (w ++ cs) = scanAt .initial line 0 cs := by
    rw [scanAt_drop, List.drop_left]
  have htake : (c :: (w ++ cs)).take (w.length + 1) = c :: w := by
    rw [List.take_succ_cons, List.take_left]
  simp only [scanAt, hwin, List.length_cons, Nat.add_sub_cancel, hstep, htake, List.map_cons, hof]
  exact ⟨trivial, trivial⟩

theorem Spells.scanAt {cs : List Char} {ts : List Token} (h : Spells cs ts) (line : Nat) :
    (scanAt .initial line 0 cs).tokens.map Located.token = ts ∧
      ∃ line', (MiniC.scanAt .initial line 0 cs).ending = .eof .initial line' := by
  induction h generalizing line with
  | nil => exact ⟨rfl, line, rfl⟩
  | blank hc _ ih =>
    rw [scanAt_blank hc]
    exact ih line
  | newline hc _ ih =>
    rw [scanAt_newline hc]
    exact ih (line + 1)
  | token ht hcs _ ih =>
    obtain ⟨htokens, hending⟩ := scanAt_token ht hcs line
    rw [htokens, hending, (ih line).1]
    exact ⟨rfl, (ih line).2⟩

/-! ## The scanner finds spelled tokens only -/

/-- What the rule of a token matches is a token. -/
theorem exists_written {r : LexRule} (hr : r ∈ initialRules) {of : String → Token}
    (hof : r.2 = .token of) {w : List Char} (hne : w ≠ []) (hw : w ∈ r.1.language) :
    ∃ t, Written t w := by
  rw [initialRules_eq, firstRules, lastRules] at hr
  simp only [List.mem_append, List.mem_cons, List.mem_map, List.not_mem_nil, or_false] at hr
  rcases hr with ((rfl | rfl) | ⟨p, hp, rfl⟩) | rfl | rfl | rfl | rfl | rfl
  · cases hof
  · cases hof
  · rw [fixed, Pattern.mem_language_word] at hw
    exact ⟨p.2, hw ▸ .fixed hp⟩
  · exact ⟨_, .integer hne (mem_language_digits.mp hw)⟩
  · obtain ⟨a, b, rfl, ha, hb, hne⟩ := mem_language_float.mp hw
    exact ⟨_, .float ha hb hne⟩
  · obtain ⟨c, cs, rfl, hc, hcs⟩ := mem_language_ident.mp hw
    by_cases hres : ∃ p ∈ reserved, p.1.toList = c :: cs
    · obtain ⟨p, hp, heq⟩ := hres
      exact ⟨p.2, heq ▸ .fixed hp⟩
    · exact ⟨_, .id hc hcs fun p hp heq => hres ⟨p, hp, heq⟩⟩
  · cases hof
  · cases hof

theorem reserved_extensions : ∀ p ∈ reserved,
    (p.2.extensions.all fun c => p.1.toList ++ [c] ∈ ['/', '*'] :: reserved.map (·.1.toList)) =
      true := by
  decide +kernel

def Token.isConstant : Token → Bool
  | .constantInteger _ | .constantFloat _ => true
  | _ => false

theorem reserved_isConstant : ∀ p ∈ reserved, p.2.isConstant = false := by
  decide

theorem mem_extensions {t : Token} {c : Char} (hconstant : t.isConstant = false)
    (hword : t.isWord = false) (hdot : t ≠ .dot) (hc : t.continues c = true) :
    c ∈ t.extensions := by
  cases t <;>
    first
    | exact absurd rfl hdot
    | (cases hconstant; done)
    | (cases hword; done)
    | exact of_decide_eq_true hc

theorem exists_rule_of_mem_words {u : List Char}
    (hu : u ∈ ['/', '*'] :: reserved.map (·.1.toList)) : ∃ r ∈ initialRules, u ∈ r.1.language := by
  rcases List.mem_cons.mp hu with rfl | hu
  · exact ⟨(.word ['/', '*'], .begin .comment), by rw [initialRules_eq]; simp [lastRules],
      Pattern.mem_language_word.mpr rfl⟩
  · obtain ⟨p, hp, rfl⟩ := List.mem_map.mp hu
    refine ⟨fixed p.1 p.2, ?_, Pattern.mem_language_word.mpr rfl⟩
    rw [initialRules_eq, firstRules, List.append_assoc]
    exact List.mem_append_right _ (List.mem_append_left _ (List.mem_map_of_mem hp))

/-- A character that continues a token makes a longer match. -/
theorem Written.longer {t : Token} {w : List Char} (ht : Written t w) {c : Char}
    (hc : t.continues c = true) : ∃ r ∈ initialRules, w ++ [c] ∈ r.1.language := by
  have hdigits : (.star digit, .token .constantInteger) ∈ initialRules := by
    rw [initialRules_eq]
    simp [lastRules]
  have hfloat : (floatPattern, .token .constantFloat) ∈ initialRules := by
    rw [initialRules_eq]
    simp [lastRules]
  have hident : (ident, .token .id) ∈ initialRules := by
    rw [initialRules_eq]
    simp [lastRules]
  have hword : ∀ {d ds}, letter d = true → (∀ e ∈ ds, isWordChar e = true) →
      isWordChar c = true → (d :: ds) ++ [c] ∈ ident.language := by
    intro d ds hd hds hc
    refine mem_language_ident.mpr ⟨d, ds ++ [c], rfl, hd, fun e he => ?_⟩
    rw [List.mem_append, List.mem_singleton] at he
    rcases he with he | rfl
    · exact hds e he
    · exact hc
  cases ht with
  | @fixed text t ht =>
    by_cases ht' : t.isWord = true
    · have hletters := List.all_eq_true.mp ((reserved_letters _ ht).2.trans ht')
      obtain ⟨d, ds, hd⟩ := List.exists_cons_of_ne_nil (reserved_ne_nil _ ht)
      rw [continues_of_isWord ht'] at hc
      rw [hd] at hletters ⊢
      refine ⟨_, hident, hword (hletters d List.mem_cons_self) (fun e he => ?_) hc⟩
      exact isWordChar_of_letter (hletters e (List.mem_cons_of_mem _ he))
    · by_cases hdot : t = .dot
      · subst hdot
        rw [(reserved_dot _ ht).2 rfl]
        refine ⟨_, hfloat, mem_language_float.mpr ⟨[], [c], rfl, by simp, ?_, by simp⟩⟩
        intro d hd
        cases List.mem_singleton.mp hd
        exact hc
      · have hmem := mem_extensions (reserved_isConstant _ ht) (by simpa using ht') hdot hc
        have hwords := List.all_eq_true.mp (reserved_extensions _ ht) c hmem
        exact exists_rule_of_mem_words (of_decide_eq_true hwords)
  | integer hne hw =>
    rw [Token.continues, Bool.or_eq_true, decide_eq_true_eq] at hc
    rcases hc with hc | rfl
    · refine ⟨_, hdigits, mem_language_digits.mpr fun d hd => ?_⟩
      rw [List.mem_append, List.mem_singleton] at hd
      rcases hd with hd | rfl
      · exact hw d hd
      · exact hc
    · exact ⟨_, hfloat, mem_language_float.mpr ⟨_, [], rfl, hw, by simp, .inl hne⟩⟩
  | @float a b ha hb hne =>
    refine ⟨_, hfloat, mem_language_float.mpr ⟨a, b ++ [c], by simp, ha, fun d hd => ?_, by simp⟩⟩
    rw [List.mem_append, List.mem_singleton] at hd
    rcases hd with hd | rfl
    · exact hb d hd
    · exact hc
  | id hd hds hres =>
    rw [continues_of_isWord rfl] at hc
    exact ⟨_, hident, hword hd hds hc⟩

theorem Written.matchLengths {t : Token} {w : List Char} (ht : Written t w) {c : Char}
    (hc : t.continues c = true) (cs : List Char) :
    ∃ r ∈ initialRules, w.length + 1 ∈ r.1.matchLengths (w ++ c :: cs) := by
  obtain ⟨r, hr, hmem⟩ := ht.longer hc
  refine ⟨r, hr, by simp, ?_⟩
  rwa [List.take_length_add_append, List.take_succ_cons, List.take_zero]

/-- If the scanner returns a token, the text in front of it spells it, and what follows
does not continue it. -/
theorem written_of_firstLongest {c : Char} {cs : List Char} {n : Nat} {of : String → Token}
    (hwin : Pattern.firstLongest (c :: cs) StartCondition.initial.rules =
      some (n + 1, .token of)) :
    Written (of (String.ofList ((c :: cs).take (n + 1)))) ((c :: cs).take (n + 1)) ∧
      ∀ d ∈ (cs.drop n).head?,
        (of (String.ofList ((c :: cs).take (n + 1)))).continues d = false := by
  obtain ⟨r, hr, hlong, hact⟩ := Pattern.exists_longest_of_firstLongest hwin
  obtain ⟨hle, hmem⟩ := Pattern.matchLengths_of_longest hlong
  have hsplit := List.take_append_drop (n + 1) (c :: cs)
  have hlen : ((c :: cs).take (n + 1)).length = n + 1 := by
    rw [List.length_take, Nat.min_eq_left hle]
  obtain ⟨t, ht⟩ := exists_written hr hact (by simp) hmem
  rw [List.drop_succ_cons] at hsplit
  have hcont : ∀ d ∈ (cs.drop n).head?, t.continues d = false := by
    intro d hd
    by_contra hcont
    obtain ⟨rest, hrest⟩ := List.head?_eq_some_iff.mp hd
    obtain ⟨r', hr', hlonger⟩ := ht.matchLengths (Bool.eq_true_of_not_eq_false hcont) rest
    rw [← hrest, hsplit] at hlonger
    obtain ⟨m, act, hwin', hm⟩ := Pattern.le_firstLongest_of_match hr' hlonger
    cases hwin.symm.trans hwin'
    omega
  obtain ⟨of', hwin', hof'⟩ := firstLongest_token ht hcont
  rw [hsplit, hlen, hwin] at hwin'
  cases hwin'
  rw [hof']
  exact ⟨ht, hcont⟩

theorem space_of_mem_initialRules {p : Pattern Char} (h : (p, .skip) ∈ initialRules) :
    p = space := by
  simpa [initialRules, fixed] using h

/-- A text without comments, and what is left of it. -/
theorem Blanked.drop {u cs : List Char} (h : Blanked (u ++ cs) (u ++ cs)) : Blanked cs cs := by
  induction u with
  | nil => exact h
  | cons c u ih =>
    generalize hout : c :: u ++ cs = out at h
    cases h with
    | nil => cases hout
    | char _ hrest =>
      obtain ⟨-, rfl⟩ := List.cons.inj hout
      exact ih hrest

theorem Blanked.not_startsComment {cs : List Char} (h : Blanked cs cs) : ¬ StartsComment cs := by
  generalize hout : cs = out at h
  cases h with
  | nil => exact fun ⟨_, heq⟩ => by cases heq
  | char hstart _ => exact hstart

/-- A text without comments that the scanner reads to its end spells the tokens. -/
theorem spells_of_scanAt {cs : List Char} (h : Blanked cs cs) {line line' : Nat}
    (hend : (scanAt .initial line 0 cs).ending = .eof .initial line') :
    Spells cs ((scanAt .initial line 0 cs).tokens.map Located.token) := by
  induction hn : cs.length using Nat.strong_induction_on generalizing cs line with
  | _ k ih =>
    cases cs with
    | nil => exact .nil
    | cons c cs =>
      have htail : Blanked cs cs := Blanked.drop (u := [c]) h
      have hshort : cs.length < k := by
        rw [← hn]
        exact Nat.lt_succ_self _
      obtain ⟨n, act, hwin⟩ := StartCondition.initial.exists_match c cs
      obtain ⟨⟨p, act⟩, hr, hlong, rfl⟩ := Pattern.exists_longest_of_firstLongest hwin
      obtain ⟨hle, hmem⟩ := Pattern.matchLengths_of_longest hlong
      cases act with
      | skip =>
        rw [space_of_mem_initialRules hr] at hmem
        have hc : isBlank c = true := mem_language_space.mp hmem c (by simp)
        rw [scanAt_blank hc] at hend ⊢
        exact .blank hc (ih _ hshort htail hend rfl)
      | newline =>
        rw [newline_of_mem_rules hr] at hmem
        obtain ⟨d, hd, heq⟩ := hmem
        obtain ⟨rfl, -⟩ := List.cons.inj heq
        have hc : c = '\n' ∨ c = '\r' := by simpa using hd
        rw [scanAt_newline hc] at hend ⊢
        exact .newline hc (ih _ hshort htail hend rfl)
      | token of =>
        obtain ⟨hwritten, hcont⟩ := written_of_firstLongest hwin
        have hsplit := List.take_append_drop (n + 1) (c :: cs)
        rw [List.drop_succ_cons] at hsplit
        have hrest : Blanked (cs.drop n) (cs.drop n) :=
          Blanked.drop (u := (c :: cs).take (n + 1)) (by rwa [hsplit])
        have hdrop : ((cs.drop n).length) < k := by
          rw [List.length_drop]
          omega
        obtain ⟨htokens, hending⟩ := scanAt_token hwritten hcont line
        rw [hsplit] at htokens hending
        rw [htokens]
        rw [hending] at hend
        have hspells := Spells.token hwritten hcont (ih _ hdrop hrest hend rfl)
        rwa [hsplit] at hspells
      | begin cond =>
        rw [(begin_of_mem_initialRules hr).1, Pattern.mem_language_word] at hmem
        have hprefix := List.take_prefix (n + 1) (c :: cs)
        rw [hmem] at hprefix
        exact absurd hprefix h.not_startsComment
      | lexicalError =>
        simp only [scanAt, hwin] at hend
        cases hend

/-- The text with its comments blanked has no comments. -/
theorem Blanked.blanked {text out : List Char} (h : Blanked text out) : Blanked out out := by
  induction h with
  | nil => exact .nil
  | @char c cs out hstart hrest ih =>
    refine .char (fun hout => hstart ?_) ih
    obtain ⟨rest, heq⟩ := hout
    obtain ⟨rfl, htail⟩ := List.cons.inj heq
    cases hrest with
    | nil => cases htail
    | char =>
      obtain ⟨rfl, -⟩ := List.cons.inj htail
      exact List.prefix_append ['/', '*'] _
    | comment => cases (List.cons.inj htail).1
  | comment _ _ ih =>
    refine .char (fun hout => ?_) ih
    obtain ⟨rest, heq⟩ := hout
    cases (List.cons.inj heq).1

theorem StopAlike.eof_iff {s t : LocatedScan} (h : StopAlike s t) (cond : StartCondition) :
    (∃ line, s.ending = .eof cond line) ↔ ∃ line, t.ending = .eof cond line := by
  cases h with
  | eof hs ht => simp [hs, ht]
  | lexicalError hs ht => simp [hs, ht]

/-- A text whose comments are closed is scanned to these tokens, up to its end, if and only
if it spells them with its comments blanked. -/
theorem scan_iff_spells {text out : List Char} (h : Blanked text out) (hcr : '\r' ∉ text)
    (line : Nat) (ts : List Token) :
    ((scan .initial line 0 text).tokens.map Prod.fst = ts ∧
        ∃ line', (scan .initial line 0 text).ending = .eof .initial line') ↔ Spells out ts := by
  have halike := scanAt_blanked h hcr line line
  have htokens : (scan .initial line 0 text).tokens.map Prod.fst =
      (scanAt .initial line 0 out).tokens.map Located.token := by
    rw [scan_eq_scanAt, ← halike.tokens, List.map_map]
    rfl
  have hending : (scan .initial line 0 text).ending = (scanAt .initial line 0 text).ending := by
    rw [scan_eq_scanAt]
  rw [htokens, hending, halike.stop.eof_iff]
  constructor
  · rintro ⟨rfl, line', hend⟩
    exact spells_of_scanAt h.blanked hend
  · exact fun hspells => hspells.scanAt line

/-- A comment right after a keyword. -/
theorem scan_iff_spells_comment :
    Spells "int x;".toList [.intKeyword, .id "x", .semicolon] ∧
      (scan .initial 1 0 "int/**/x;".toList).tokens.map Prod.fst =
        [.intKeyword, .id "x", .semicolon] := by
  have hspells : Spells ("int".toList ++ ' ' :: (['x'] ++ (";".toList ++ [])))
      [.intKeyword, .id "x", .semicolon] := by
    refine .token (.fixed (by decide)) (fun _ h => by cases h; rfl) (.blank rfl ?_)
    refine .token (.id rfl (by simp) (by decide)) (fun _ h => by cases h; rfl) ?_
    exact .token (.fixed (by decide)) (fun _ h => by cases h) .nil
  have hblanked : Blanked "int/**/x;".toList "int x;".toList :=
    .char (by decide) (.char (by decide) (.char (by decide)
      (.comment rfl (.char (by decide) (.char (by decide) .nil)))))
  exact ⟨hspells, ((scan_iff_spells hblanked (by decide) 1 _).mpr hspells).1⟩

end CourseCompilers.MiniC
