import CourseCompilers.Lib.Matching
import CourseCompilers.Structured.Parser

/-! The scanner of the third tutorial, and the texts in which it finds given tokens. -/

namespace CourseCompilers.Structured
open Lib

/-! ## The rules -/

inductive LexAction where
  | skip
  | token (of : List Char → Tok)
  | illegal

abbrev LexRule := Pattern Char × LexAction

def isSpace (c : Char) : Bool := c = ' ' || c = '\n' || c = '\t'
def isLetter (c : Char) : Bool := 'a' ≤ c && c ≤ 'z' || 'A' ≤ c && c ≤ 'Z'
def isDigit (c : Char) : Bool := '0' ≤ c && c ≤ '9'

def keywords : List (String × Tok) :=
  [("while", .whileKeyword), ("if", .ifKeyword), ("return", .returnKeyword)]

def symbols : List (Char × Tok) :=
  [('=', .assign), (';', .semi), ('(', .expr .lparen), (')', .expr .rparen),
   ('\x7b', .lbrace), ('\x7d', .rbrace), ('+', .expr (.op .plus)), ('-', .expr (.op .minus)),
   ('*', .expr (.op .multiply)), ('/', .expr (.op .divide)), ('!', .expr (.op .not))]

def space : LexRule := (.cls isSpace, .skip)
def keyword (p : String × Tok) : LexRule := (.word p.1.toList, .token fun _ => p.2)
def ident : LexRule :=
  (.plus (.cls isLetter), .token fun w => .expr (.atom (.id (String.ofList w))))
def immediate : LexRule :=
  (.plus (.cls isDigit),
    .token fun w => .expr (.atom (.immediate (atoi (Nat.ofDigitChars 10 w 0)))))
def symbol (p : Char × Tok) : LexRule := (.cls (· = p.1), .token fun _ => p.2)
def comment : LexRule := (.seq (.word ['/', '/']) (.star (.cls (· ≠ '\n'))), .skip)
def illegal : LexRule := (.cls (· ≠ '\n'), .illegal)

/-- The rules of `expr.lex`, in its order. -/
def rules : List LexRule :=
  space :: keywords.map keyword ++ ident :: immediate :: symbols.map symbol ++ [comment, illegal]

/-- What an action adds to the tokens to come; `yyterminate` ends them. -/
def LexAction.perform (yytext : List Char) (ts : List Tok) : LexAction → List Tok
  | .skip => ts
  | .token of => of yytext :: ts
  | .illegal => []

/-- The tokens of a text. The next `skip` characters belong to the last match; what no rule
matches is copied. -/
def scan : Nat → List Char → List Tok
  | _, [] => []
  | skip + 1, _ :: cs => scan skip cs
  | 0, c :: cs =>
      match Pattern.firstLongest (c :: cs) rules with
      | none => scan 0 cs
      | some (n, a) => a.perform ((c :: cs).take n) (scan (n - 1) cs)

example : scan 0 "\x7bx=12;// if\nreturn ix/3;\x7d".toList =
    [.lbrace, .expr (.atom (.id "x")), .assign, .expr (.atom (.immediate 12)), .semi,
     .returnKeyword, .expr (.atom (.id "ix")), .expr (.op .divide),
     .expr (.atom (.immediate 3)), .semi, .rbrace] := by
  decide +kernel

/-! ## Texts of tokens -/

/-- How a token is spelled. -/
inductive Written : Tok → List Char → Prop
  | keyword {p : String × Tok} : p ∈ keywords → Written p.2 p.1.toList
  | id {w : List Char} : w ≠ [] → (∀ c ∈ w, isLetter c = true) →
      (∀ p ∈ keywords, p.1.toList ≠ w) → Written (.expr (.atom (.id (String.ofList w)))) w
  | immediate {w : List Char} : w ≠ [] → (∀ c ∈ w, isDigit c = true) →
      Written (.expr (.atom (.immediate (atoi (Nat.ofDigitChars 10 w 0))))) w
  | symbol {p : Char × Tok} : p ∈ symbols → Written p.2 [p.1]

/-- Whether a character right after the token is taken for a part of it, or of a comment. -/
def Tok.continues (t : Tok) (c : Char) : Bool :=
  match t with
  | .whileKeyword | .ifKeyword | .returnKeyword | .expr (.atom (.id _)) => isLetter c
  | .expr (.atom (.immediate _)) => isDigit c
  | .expr (.op .divide) => c = '/'
  | _ => false

/-- The text spells the tokens and then `rest`, with spaces and comments in front of tokens. -/
inductive Spells : List Char → List Tok → List Char → Prop
  | done {cs : List Char} : Spells cs [] cs
  | space {c : Char} {cs rest : List Char} {ts : List Tok} : isSpace c = true →
      Spells cs ts rest → Spells (c :: cs) ts rest
  | comment {w cs rest : List Char} {ts : List Tok} : (∀ c ∈ w, c ≠ '\n') →
      (∀ c ∈ cs.head?, c = '\n') → Spells cs ts rest → Spells ('/' :: '/' :: w ++ cs) ts rest
  | token {t : Tok} {w cs rest : List Char} {ts : List Tok} : Written t w →
      (∀ c ∈ cs.head?, t.continues c = false) → Spells cs ts rest → Spells (w ++ cs) (t :: ts) rest

/-! ## Classes of characters -/

theorem isLetter_iff {c : Char} : isLetter c = true ↔
    (97 ≤ c.toNat ∧ c.toNat ≤ 122) ∨ 65 ≤ c.toNat ∧ c.toNat ≤ 90 := by
  simp only [isLetter, Bool.or_eq_true, Bool.and_eq_true, decide_eq_true_eq, Char.le_def,
    UInt32.le_iff_toNat_le]
  rfl

theorem isDigit_iff {c : Char} : isDigit c = true ↔ 48 ≤ c.toNat ∧ c.toNat ≤ 57 := by
  simp only [isDigit, Bool.and_eq_true, decide_eq_true_eq, Char.le_def, UInt32.le_iff_toNat_le]
  rfl

theorem isDigit_of_isLetter {c : Char} (h : isLetter c = true) : isDigit c = false := by
  by_contra hdigit
  rw [Bool.not_eq_false, isDigit_iff] at hdigit
  rw [isLetter_iff] at h
  omega

theorem isLetter_of_isDigit {c : Char} (h : isDigit c = true) : isLetter c = false := by
  by_contra hletter
  rw [Bool.not_eq_false] at hletter
  rw [isDigit_of_isLetter hletter] at h
  cases h

theorem isSpace_cases {c : Char} (h : isSpace c = true) :
    isLetter c = false ∧ isDigit c = false ∧ c ≠ '/' := by
  simp only [isSpace, Bool.or_eq_true, decide_eq_true_eq] at h
  rcases h with (rfl | rfl) | rfl <;> decide

theorem keywords_letters : ∀ p ∈ keywords, p.1.toList ≠ [] ∧
    (p.1.toList.all isLetter) = true ∧ ∀ c, p.2.continues c = isLetter c := by
  simp only [keywords, List.forall_mem_cons, List.not_mem_nil, false_imp_iff, implies_true,
    and_true]
  exact ⟨⟨by decide, by decide, fun _ => rfl⟩, ⟨by decide, by decide, fun _ => rfl⟩,
    by decide, by decide, fun _ => rfl⟩

theorem keywords_nodup : (keywords.map (·.1.toList)).Nodup := by
  decide

theorem symbols_class : ∀ p ∈ symbols, isSpace p.1 = false ∧ isLetter p.1 = false ∧
    isDigit p.1 = false ∧ (p.1 = '/' → p.2 = .expr (.op .divide)) := by
  decide

theorem symbols_continues :
    ∀ p ∈ symbols, ∀ c, p.2.continues c = true → p.1 = '/' ∧ c = '/' := by
  intro p hp c hc
  simp only [symbols, List.mem_cons, List.not_mem_nil, or_false] at hp
  rcases hp with rfl | rfl | rfl | rfl | rfl | rfl | rfl | rfl | rfl | rfl | rfl <;>
    first | cases hc | exact ⟨rfl, of_decide_eq_true hc⟩

theorem symbols_nodup : (symbols.map (·.1)).Nodup := by
  decide

/-! ## No rule goes beyond a token -/

theorem mem_language_comment {u : List Char} :
    u ∈ comment.1.language ↔ ∃ w, u = '/' :: '/' :: w ∧ ∀ c ∈ w, c ≠ '\n' := by
  rw [comment, Pattern.mem_language_seq]
  constructor
  · rintro ⟨v, hv, w, hw, rfl⟩
    rw [Pattern.mem_language_word] at hv
    exact ⟨w, by rw [hv]; rfl, fun c hc => by simpa using Pattern.mem_language_star_cls.mp hw c hc⟩
  · rintro ⟨w, rfl, hw⟩
    refine ⟨['/', '/'], Pattern.mem_language_word.mpr rfl, w, ?_, rfl⟩
    exact Pattern.mem_language_star_cls.mpr fun c hc => by simpa using hw c hc

theorem keyword_letters {p : String × Tok} (hp : p ∈ keywords) :
    ∀ c ∈ p.1.toList, isLetter c = true :=
  List.all_eq_true.mp (keywords_letters p hp).2.1

/-- The texts that some rule matches. -/
theorem matched_cases {r : LexRule} (hr : r ∈ rules) {u : List Char} (hu : u ∈ r.1.language) :
    (∃ c, u = [c]) ∨ (∀ c ∈ u, isLetter c = true) ∨ (∀ c ∈ u, isDigit c = true) ∨
      ∃ w, u = '/' :: '/' :: w ∧ ∀ c ∈ w, c ≠ '\n' := by
  simp only [rules, List.mem_append, List.mem_cons, List.mem_map, List.not_mem_nil, or_false] at hr
  rcases hr with ((rfl | ⟨p, hp, rfl⟩) | rfl | rfl | ⟨p, -, rfl⟩) | rfl | rfl
  · obtain ⟨c, -, rfl⟩ := hu
    exact .inl ⟨c, rfl⟩
  · rw [keyword, Pattern.mem_language_word] at hu
    exact .inr (.inl (hu ▸ keyword_letters hp))
  · exact .inr (.inl (Pattern.mem_language_plus_cls.mp hu).2)
  · exact .inr (.inr (.inl (Pattern.mem_language_plus_cls.mp hu).2))
  · obtain ⟨c, -, rfl⟩ := hu
    exact .inl ⟨c, rfl⟩
  · exact .inr (.inr (.inr (mem_language_comment.mp hu)))
  · obtain ⟨c, -, rfl⟩ := hu
    exact .inl ⟨c, rfl⟩

theorem cons_append_ne_singleton {w us : List Char} {c d e : Char} : d :: w ++ c :: us ≠ [e] := by
  intro heq
  have htail := (List.cons.inj heq).2
  simp at htail

/-- The first character of a token says which of the rules may match it. -/
theorem Written.head {t : Tok} {w : List Char} (h : Written t w) :
    ∃ d ds, w = d :: ds ∧
      ((∀ c ∈ w, isLetter c = true) ∧ (∀ c, t.continues c = isLetter c) ∨
        (∀ c ∈ w, isDigit c = true) ∧ (∀ c, t.continues c = isDigit c) ∨
        ds = [] ∧ (d, t) ∈ symbols) := by
  cases h with
  | @keyword p hp =>
    obtain ⟨hne, -, hcontinues⟩ := keywords_letters p hp
    obtain ⟨d, ds, hd⟩ := List.exists_cons_of_ne_nil hne
    exact ⟨d, ds, hd, .inl ⟨keyword_letters hp, hcontinues⟩⟩
  | id hne hw _ =>
    obtain ⟨d, ds, rfl⟩ := List.exists_cons_of_ne_nil hne
    exact ⟨d, ds, rfl, .inl ⟨hw, fun _ => rfl⟩⟩
  | immediate hne hw =>
    obtain ⟨d, ds, rfl⟩ := List.exists_cons_of_ne_nil hne
    exact ⟨d, ds, rfl, .inr (.inl ⟨hw, fun _ => rfl⟩)⟩
  | @symbol p hp => exact ⟨p.1, [], rfl, .inr (.inr ⟨rfl, hp⟩)⟩

theorem Written.ne_nil {t : Tok} {w : List Char} (h : Written t w) : w ≠ [] := by
  obtain ⟨d, ds, rfl, -⟩ := h.head
  exact List.cons_ne_nil d ds

/-- In front of what does not continue it no rule matches more than a token. -/
theorem Written.not_longer {t : Tok} {w us : List Char} {c : Char} (h : Written t w)
    (hc : t.continues c = false) {r : LexRule} (hr : r ∈ rules) : w ++ c :: us ∉ r.1.language := by
  intro hu
  obtain ⟨d, ds, rfl, hclass⟩ := h.head
  rcases matched_cases hr hu with ⟨e, he⟩ | hletters | hdigits | ⟨v, hv, -⟩
  · exact cons_append_ne_singleton he
  · rcases hclass with ⟨-, hcontinues⟩ | ⟨hw, -⟩ | ⟨rfl, hsymbol⟩
    · rw [hcontinues, hletters c (by simp)] at hc
      cases hc
    · have hd := isDigit_of_isLetter (hletters d (by simp))
      rw [hw d (by simp)] at hd
      cases hd
    · have hd := (symbols_class _ hsymbol).2.1
      rw [hletters d (by simp)] at hd
      cases hd
  · rcases hclass with ⟨hw, -⟩ | ⟨-, hcontinues⟩ | ⟨rfl, hsymbol⟩
    · have hd := isDigit_of_isLetter (hw d (by simp))
      rw [hdigits d (by simp)] at hd
      cases hd
    · rw [hcontinues, hdigits c (by simp)] at hc
      cases hc
    · have hd := (symbols_class _ hsymbol).2.2.1
      rw [hdigits d (by simp)] at hd
      cases hd
  · obtain ⟨rfl, htail⟩ := List.cons.inj hv
    rcases hclass with ⟨hw, -⟩ | ⟨hw, -⟩ | ⟨rfl, hsymbol⟩
    · cases hw '/' (by simp)
    · cases hw '/' (by simp)
    · obtain ⟨rfl, -⟩ := List.cons.inj htail
      have ht : t = .expr (.op .divide) := (symbols_class _ hsymbol).2.2.2 rfl
      rw [ht] at hc
      cases hc

/-! ## The rule of a token -/

theorem not_mem_space {c : Char} {cs : List Char} (hc : isSpace c = false) :
    c :: cs ∉ space.1.language := by
  rintro ⟨d, hd, heq⟩
  rw [← (List.cons.inj heq).1, hc] at hd
  cases hd

theorem not_mem_keywords {w : List Char} {r : LexRule} (hr : r ∈ keywords.map keyword)
    (hw : ∀ p ∈ keywords, p.1.toList ≠ w) : w ∉ r.1.language := by
  obtain ⟨p, hp, rfl⟩ := List.mem_map.mp hr
  rw [keyword, Pattern.mem_language_word]
  exact fun heq => hw p hp heq.symm

theorem not_mem_plus {q : Char → Bool} {c : Char} {cs : List Char} (hc : q c = false) :
    c :: cs ∉ (Pattern.plus (.cls q)).language := by
  intro h
  rw [(Pattern.mem_language_plus_cls.mp h).2 c List.mem_cons_self] at hc
  cases hc

theorem keyword_ne_cons {c : Char} {cs : List Char} (hc : isLetter c = false) :
    ∀ p ∈ keywords, p.1.toList ≠ c :: cs := by
  intro p hp heq
  rw [keyword_letters hp c (by simp [heq])] at hc
  cases hc

theorem mem_language_symbol {p : Char × Tok} {u : List Char} :
    u ∈ (symbol p).1.language ↔ u = [p.1] := by
  constructor
  · rintro ⟨d, hd, rfl⟩
    rw [of_decide_eq_true hd]
  · rintro rfl
    exact ⟨p.1, by simp, rfl⟩

/-- The rules before those of the symbols. -/
theorem not_mem_first {c : Char} {cs : List Char} (hspace : isSpace c = false)
    (hletter : isLetter c = false) (hdigit : isDigit c = false) {r : LexRule}
    (hr : r ∈ space :: keywords.map keyword ++ [ident, immediate]) : c :: cs ∉ r.1.language := by
  simp only [List.cons_append, List.mem_cons, List.mem_append, List.not_mem_nil, or_false] at hr
  rcases hr with rfl | hr | rfl | rfl
  · exact not_mem_space hspace
  · exact not_mem_keywords hr (keyword_ne_cons hletter)
  · exact not_mem_plus hletter
  · exact not_mem_plus hdigit

theorem isSpace_of_isLetter {c : Char} (h : isLetter c = true) : isSpace c = false := by
  by_contra hspace
  rw [Bool.not_eq_false] at hspace
  rw [(isSpace_cases hspace).1] at h
  cases h

theorem isSpace_of_isDigit {c : Char} (h : isDigit c = true) : isSpace c = false := by
  by_contra hspace
  rw [Bool.not_eq_false] at hspace
  rw [(isSpace_cases hspace).2.1] at h
  cases h

/-- The scanner finds a token in front of what does not continue it. -/
theorem firstLongest_of_written {t : Tok} {w cs : List Char} (h : Written t w)
    (hcs : ∀ c ∈ cs.head?, t.continues c = false) :
    ∃ of, Pattern.firstLongest (w ++ cs) rules = some (w.length, .token of) ∧ of w = t := by
  have hmore : ∀ c ∈ cs.head?, ∀ r ∈ rules, ∀ us, w ++ c :: us ∉ r.1.language :=
    fun c hc r hr us => h.not_longer (hcs c hc) hr
  cases h with
  | @keyword p hp =>
    obtain ⟨before, after, hsplit⟩ := List.append_of_mem hp
    have hrules : rules = (space :: before.map keyword) ++ keyword p :: (after.map keyword ++
        ident :: immediate :: symbols.map symbol ++ [comment, illegal]) := by
      simp [rules, hsplit]
    obtain ⟨hne, -, -⟩ := keywords_letters p hp
    rw [hrules] at hmore ⊢
    refine ⟨_, Pattern.firstLongest_of_word (Pattern.mem_language_word.mpr rfl) ?_ hmore, rfl⟩
    intro r hr
    rcases List.mem_cons.mp hr with rfl | hr
    · obtain ⟨d, ds, hd⟩ := List.exists_cons_of_ne_nil hne
      rw [hd]
      exact not_mem_space (isSpace_of_isLetter (keyword_letters hp d (by simp [hd])))
    · obtain ⟨q, hq, rfl⟩ := List.mem_map.mp hr
      rw [keyword, Pattern.mem_language_word]
      intro heq
      have hnodup := keywords_nodup
      rw [hsplit, List.map_append, List.map_cons, List.nodup_append] at hnodup
      exact hnodup.2.2 _ (List.mem_map_of_mem hq) _ List.mem_cons_self heq.symm
  | id hne hw hkeywords =>
    obtain ⟨d, ds, rfl⟩ := List.exists_cons_of_ne_nil hne
    have hrules : rules = (space :: keywords.map keyword) ++ ident ::
        (immediate :: symbols.map symbol ++ [comment, illegal]) := rfl
    rw [hrules] at hmore ⊢
    refine ⟨_, Pattern.firstLongest_of_word ?_ ?_ hmore, rfl⟩
    · exact Pattern.mem_language_plus_cls.mpr ⟨hne, hw⟩
    · intro r hr
      rcases List.mem_cons.mp hr with rfl | hr
      · exact not_mem_space (isSpace_of_isLetter (hw d List.mem_cons_self))
      · exact not_mem_keywords hr hkeywords
  | immediate hne hw =>
    obtain ⟨d, ds, rfl⟩ := List.exists_cons_of_ne_nil hne
    have hd := hw d List.mem_cons_self
    have hrules : rules = (space :: keywords.map keyword ++ [ident]) ++ immediate ::
        (symbols.map symbol ++ [comment, illegal]) := rfl
    rw [hrules] at hmore ⊢
    refine ⟨_, Pattern.firstLongest_of_word ?_ ?_ hmore, rfl⟩
    · exact Pattern.mem_language_plus_cls.mpr ⟨hne, hw⟩
    · intro r hr
      simp only [List.cons_append, List.mem_cons, List.mem_append, List.not_mem_nil, or_false] at hr
      rcases hr with rfl | hr | rfl
      · exact not_mem_space (isSpace_of_isDigit hd)
      · exact not_mem_keywords hr (keyword_ne_cons (isLetter_of_isDigit hd))
      · exact not_mem_plus (isLetter_of_isDigit hd)
  | @symbol p hp =>
    obtain ⟨before, after, hsplit⟩ := List.append_of_mem hp
    have hrules : rules = (space :: keywords.map keyword ++ [ident, immediate] ++
        before.map symbol) ++ symbol p :: (after.map symbol ++ [comment, illegal]) := by
      simp [rules, hsplit]
    obtain ⟨hspace, hletter, hdigit, -⟩ := symbols_class p hp
    rw [hrules] at hmore ⊢
    refine ⟨_, Pattern.firstLongest_of_word (mem_language_symbol.mpr rfl) ?_ hmore, rfl⟩
    intro r hr
    rcases List.mem_append.mp hr with hr | hr
    · exact not_mem_first hspace hletter hdigit hr
    · obtain ⟨q, hq, rfl⟩ := List.mem_map.mp hr
      rw [mem_language_symbol]
      intro heq
      have hnodup := symbols_nodup
      rw [hsplit, List.map_append, List.map_cons, List.nodup_append] at hnodup
      refine hnodup.2.2 _ (List.mem_map_of_mem hq) _ List.mem_cons_self ?_
      exact (List.cons.inj heq).1.symm

/-! ## The other rules -/

/-- No rule goes beyond a character that begins neither a word nor a comment. -/
theorem single_not_longer {c d : Char} {us : List Char} (hletter : isLetter c = false)
    (hdigit : isDigit c = false) (hslash : c ≠ '/') {r : LexRule} (hr : r ∈ rules) :
    [c] ++ d :: us ∉ r.1.language := by
  intro hu
  rcases matched_cases hr hu with ⟨e, he⟩ | h | h | ⟨v, hv, -⟩
  · exact cons_append_ne_singleton he
  · rw [h c (by simp)] at hletter
    cases hletter
  · rw [h c (by simp)] at hdigit
    cases hdigit
  · exact hslash (List.cons.inj hv).1

theorem firstLongest_of_space {c : Char} {cs : List Char} (hc : isSpace c = true) :
    Pattern.firstLongest (c :: cs) rules = some (1, .skip) := by
  obtain ⟨hletter, hdigit, hslash⟩ := isSpace_cases hc
  have hrules : rules = [] ++ space :: rules.tail := rfl
  rw [hrules]
  refine Pattern.firstLongest_of_word (w := [c]) ⟨c, hc, rfl⟩ (by simp) ?_
  exact fun d _ r hr us => single_not_longer hletter hdigit hslash hr

/-- The rules before that of comments match one character of a symbol only. -/
theorem not_mem_before_comment {c : Char} {cs : List Char} (hspace : isSpace c = false)
    (hletter : isLetter c = false) (hdigit : isDigit c = false)
    (hsymbol : ∀ p ∈ symbols, c :: cs ≠ [p.1]) {r : LexRule}
    (hr : r ∈ space :: keywords.map keyword ++ [ident, immediate] ++ symbols.map symbol) :
    c :: cs ∉ r.1.language := by
  rcases List.mem_append.mp hr with hr | hr
  · exact not_mem_first hspace hletter hdigit hr
  · obtain ⟨p, hp, rfl⟩ := List.mem_map.mp hr
    rw [mem_language_symbol]
    exact hsymbol p hp

theorem firstLongest_of_comment {w cs : List Char} (hw : ∀ c ∈ w, c ≠ '\n')
    (hcs : ∀ c ∈ cs.head?, c = '\n') :
    Pattern.firstLongest ('/' :: '/' :: w ++ cs) rules = some (w.length + 2, .skip) := by
  have hrules : rules = (space :: keywords.map keyword ++ [ident, immediate] ++
      symbols.map symbol) ++ comment :: [illegal] := rfl
  rw [hrules]
  refine Pattern.firstLongest_of_word (w := '/' :: '/' :: w) ?_ ?_ ?_
  · exact mem_language_comment.mpr ⟨w, rfl, hw⟩
  · intro r hr
    exact not_mem_before_comment (by decide) (by decide) (by decide) (by simp) hr
  · intro c hc r hr us hu
    rcases matched_cases hr hu with ⟨e, he⟩ | h | h | ⟨v, hv, hall⟩
    · exact cons_append_ne_singleton he
    · cases h '/' (by simp)
    · cases h '/' (by simp)
    · obtain rfl : w ++ c :: us = v := (List.cons.inj (List.cons.inj hv).2).2
      exact hall c (by simp) (hcs c hc)

theorem firstLongest_of_illegal {c : Char} {cs : List Char} (hspace : isSpace c = false)
    (hletter : isLetter c = false) (hdigit : isDigit c = false)
    (hsymbol : ∀ p ∈ symbols, c ≠ p.1) :
    Pattern.firstLongest (c :: cs) rules = some (1, .illegal) := by
  have hslash : c ≠ '/' := hsymbol ('/', .expr (.op .divide)) (by decide)
  have hnewline : c ≠ '\n' := by
    rintro rfl
    cases hspace
  have hrules : rules = (space :: keywords.map keyword ++ [ident, immediate] ++
      symbols.map symbol ++ [comment]) ++ illegal :: [] := rfl
  rw [hrules]
  refine Pattern.firstLongest_of_word (w := [c]) ⟨c, by simpa using hnewline, rfl⟩ ?_ ?_
  · intro r hr
    rcases List.mem_append.mp hr with hr | hr
    · exact not_mem_before_comment hspace hletter hdigit (by simpa using hsymbol) hr
    · rw [List.mem_singleton.mp hr, mem_language_comment]
      rintro ⟨v, hv, -⟩
      exact hslash (List.cons.inj hv).1
  · exact fun d _ r hr us => single_not_longer hletter hdigit hslash hr

/-! ## The scanner on a text -/

theorem scan_drop (w cs : List Char) : scan w.length (w ++ cs) = scan 0 cs := by
  induction w with
  | nil => rfl
  | cons c w ih => exact ih

/-- One match of the scanner. -/
theorem scan_match {c : Char} {w cs : List Char} {a : LexAction}
    (h : Pattern.firstLongest (c :: w ++ cs) rules = some (w.length + 1, a)) :
    scan 0 (c :: w ++ cs) = a.perform (c :: w) (scan 0 cs) := by
  rw [List.cons_append] at h ⊢
  rw [scan, h]
  have htake : (c :: (w ++ cs)).take (w.length + 1) = c :: w := by
    rw [List.take_succ_cons, List.take_left]
  exact congrArg₂ (fun u ts => a.perform u ts) htake (scan_drop w cs)

theorem scan_written {t : Tok} {w cs : List Char} (h : Written t w)
    (hcs : ∀ c ∈ cs.head?, t.continues c = false) : scan 0 (w ++ cs) = t :: scan 0 cs := by
  obtain ⟨of, hlong, rfl⟩ := firstLongest_of_written h hcs
  obtain ⟨c, w, rfl⟩ := List.exists_cons_of_ne_nil h.ne_nil
  exact scan_match hlong

theorem scan_space {c : Char} {cs : List Char} (hc : isSpace c = true) :
    scan 0 (c :: cs) = scan 0 cs :=
  scan_match (w := []) (firstLongest_of_space hc)

theorem scan_comment {w cs : List Char} (hw : ∀ c ∈ w, c ≠ '\n')
    (hcs : ∀ c ∈ cs.head?, c = '\n') : scan 0 ('/' :: '/' :: w ++ cs) = scan 0 cs :=
  scan_match (w := '/' :: w) (firstLongest_of_comment hw hcs)

theorem Spells.scan {cs rest : List Char} {ts : List Tok} (h : Spells cs ts rest) :
    scan 0 cs = ts ++ scan 0 rest := by
  induction h with
  | done => rfl
  | space hc _ ih => rw [scan_space hc, ih]
  | comment hw hcs _ ih => rw [scan_comment hw hcs, ih]
  | token ht hcs _ ih => rw [scan_written ht hcs, ih, List.cons_append]

/-- What stands in front of a text: something to skip, a token, or what ends the tokens. -/
inductive Front (cs : List Char) : Prop
  | skip {rest : List Char} : rest.length < cs.length → scan 0 cs = scan 0 rest →
      (∀ ts u, Spells rest ts u → Spells cs ts u) → Front cs
  | token {t : Tok} {rest : List Char} : rest.length < cs.length →
      scan 0 cs = t :: scan 0 rest → (∀ ts u, Spells rest ts u → Spells cs (t :: ts) u) → Front cs
  | stop : scan 0 cs = [] → Front cs

theorem Written.front {t : Tok} {w u : List Char} (h : Written t w)
    (hu : ∀ c ∈ u.head?, t.continues c = false) : Front (w ++ u) := by
  refine .token ?_ (scan_written h hu) fun _ _ => .token h hu
  rw [List.length_append]
  have hpos := List.length_pos_of_ne_nil h.ne_nil
  omega

theorem head_dropWhile {p : Char → Bool} {cs : List Char} :
    ∀ c ∈ (cs.dropWhile p).head?, p c = false := by
  intro c hc
  have hnot := List.head?_dropWhile_not p cs
  rw [hc] at hnot
  exact hnot

theorem takeWhile_cons_ne_nil {p : Char → Bool} {c : Char} {cs : List Char} (hc : p c = true) :
    (c :: cs).takeWhile p ≠ [] := by
  rw [List.takeWhile_cons_of_pos hc]
  exact List.cons_ne_nil _ _

theorem front_of_letter {c : Char} {cs : List Char} (hc : isLetter c = true) :
    Front (c :: cs) := by
  have hsplit := List.takeWhile_append_dropWhile (p := isLetter) (l := c :: cs)
  have hall : ∀ d ∈ (c :: cs).takeWhile isLetter, isLetter d = true :=
    fun d hd => List.mem_takeWhile_imp hd
  rw [← hsplit]
  by_cases hkeyword : ∃ p ∈ keywords, p.1.toList = (c :: cs).takeWhile isLetter
  · obtain ⟨p, hp, heq⟩ := hkeyword
    rw [← heq]
    refine (Written.keyword hp).front fun d hd => ?_
    rw [(keywords_letters p hp).2.2]
    exact head_dropWhile d hd
  · refine (Written.id (takeWhile_cons_ne_nil hc) hall fun p hp heq => ?_).front head_dropWhile
    exact hkeyword ⟨p, hp, heq⟩

theorem front_of_digit {c : Char} {cs : List Char} (hc : isDigit c = true) : Front (c :: cs) := by
  have hall : ∀ d ∈ (c :: cs).takeWhile isDigit, isDigit d = true :=
    fun d hd => List.mem_takeWhile_imp hd
  have hfront := (Written.immediate (takeWhile_cons_ne_nil hc) hall).front
    (u := (c :: cs).dropWhile isDigit) head_dropWhile
  rwa [List.takeWhile_append_dropWhile] at hfront

theorem front_of_comment (cs : List Char) : Front ('/' :: '/' :: cs) := by
  have hall : ∀ c ∈ cs.takeWhile (· ≠ '\n'), c ≠ '\n' := fun c hc => by
    simpa using List.mem_takeWhile_imp hc
  have hhead : ∀ c ∈ (cs.dropWhile (· ≠ '\n')).head?, c = '\n' := fun c hc => by
    simpa using head_dropWhile c hc
  have hsplit := List.takeWhile_append_dropWhile (p := fun c => decide (c ≠ '\n')) (l := cs)
  have hscan := scan_comment hall hhead
  have hspells : ∀ ts u, Spells (cs.dropWhile (· ≠ '\n')) ts u →
      Spells ('/' :: '/' :: cs.takeWhile (· ≠ '\n') ++ cs.dropWhile (· ≠ '\n')) ts u :=
    fun _ _ => .comment hall hhead
  rw [List.cons_append, List.cons_append, hsplit] at hscan hspells
  refine .skip ?_ hscan hspells
  have hle := (List.dropWhile_suffix (l := cs) (fun c => decide (c ≠ '\n'))).length_le
  simp only [List.length_cons]
  omega

/-- A symbol in front of what makes it no comment. -/
theorem front_of_symbol {p : Char × Tok} (hp : p ∈ symbols) {cs : List Char}
    (hcs : p.1 = '/' → cs.head? ≠ some '/') : Front (p.1 :: cs) := by
  refine (Written.symbol hp).front (u := cs) fun c hc => ?_
  have hdivide : p.2.continues c = true → p.1 = '/' ∧ c = '/' := symbols_continues p hp c
  by_contra hcontinues
  rw [Bool.not_eq_false] at hcontinues
  obtain ⟨hslash, rfl⟩ := hdivide hcontinues
  exact hcs hslash hc

theorem front : ∀ cs : List Char, Front cs
  | [] => .stop rfl
  | c :: cs => by
    by_cases hspace : isSpace c = true
    · exact .skip (Nat.lt_succ_self _) (scan_space hspace) fun _ _ => .space hspace
    by_cases hletter : isLetter c = true
    · exact front_of_letter hletter
    by_cases hdigit : isDigit c = true
    · exact front_of_digit hdigit
    by_cases hsymbol : ∃ p ∈ symbols, c = p.1
    · obtain ⟨p, hp, rfl⟩ := hsymbol
      by_cases hcomment : p.1 = '/' ∧ cs.head? = some '/'
      · obtain ⟨hslash, hhead⟩ := hcomment
        obtain ⟨cs, rfl⟩ := List.head?_eq_some_iff.mp hhead
        rw [hslash]
        exact front_of_comment cs
      · exact front_of_symbol hp fun hslash hhead => hcomment ⟨hslash, hhead⟩
    · rw [Bool.not_eq_true] at hspace hletter hdigit
      refine .stop (scan_match (w := []) (firstLongest_of_illegal hspace hletter hdigit ?_))
      exact fun p hp heq => hsymbol ⟨p, hp, heq⟩

/-- Tokens that the scanner begins with are spelled by the text up to some place. -/
theorem spells_of_scan {cs : List Char} {ts ts' : List Tok} (h : scan 0 cs = ts ++ ts') :
    ∃ rest, Spells cs ts rest := by
  induction hn : cs.length using Nat.strongRecOn generalizing cs ts with
  | ind n ih =>
    subst hn
    cases ts with
    | nil => exact ⟨cs, .done⟩
    | cons t ts =>
      cases front cs with
      | skip hlt hscan hspells =>
        obtain ⟨u, hu⟩ := ih _ hlt (hscan ▸ h) rfl
        exact ⟨u, hspells _ u hu⟩
      | token hlt hscan hspells =>
        rw [hscan] at h
        obtain ⟨rfl, htail⟩ := List.cons.inj h
        obtain ⟨u, hu⟩ := ih _ hlt htail rfl
        exact ⟨u, hspells _ u hu⟩
      | stop hscan =>
        rw [hscan] at h
        cases h

end CourseCompilers.Structured
