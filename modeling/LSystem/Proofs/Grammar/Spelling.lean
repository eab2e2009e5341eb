import Mathlib.Data.List.Infix
import LSystem.Grammar.Production
import LSystem.Proofs.Text.Words
import LSystem.Proofs.Traversal

/-!
# Spellings of productions

A production can be spelled in many ways: with any blanks around its words and its arrow, and with
any numeral that rounds to its weight.  `Spelling` is the grammar of rule texts, written down as
data, with no mention of how a text is cut.  A text is read as a production exactly if it is a
spelling of it (`Spelling.read_text`, `Spelling.exists_of_read`), and the parts of a spelling can be
told from its text.

The one choice that reading has to make is the arrow: it takes the first.  That is the arrow of the
spelling even if the source is a minus or a greater-than sign, because the head of a spelling has no
arrow inside.  A greater-than sign can only be its source, and what stands before the source is
blank: a numeral has no such sign in it (`Numeral.isPart_of_read?`).
-/

namespace LSystem

/-! ## The characters of numerals -/

namespace Numeral

/-- A character that can occur in a numeral. -/
def IsPart (c : Char) : Prop := c.isDigit ∨ c ∈ ['+', '-', '.', 'e', 'E']

lemma isPart_of_splitSign {cs : List Char} (h : ∀ c ∈ (splitSign cs).2, IsPart c) :
    ∀ c ∈ cs, IsPart c := by
  revert h
  fun_cases splitSign cs with
  | case1 rest => exact fun h => List.forall_mem_cons.mpr ⟨.inr (by decide), h⟩
  | case2 rest => exact fun h => List.forall_mem_cons.mpr ⟨.inr (by decide), h⟩
  | case3 => exact id

lemma isPart_of_splitDigits {cs : List Char} (h : ∀ c ∈ (splitDigits cs).2, IsPart c) :
    ∀ c ∈ cs, IsPart c := by
  intro c hc
  rw [← splitDigits_append cs] at hc
  rcases List.mem_append.mp hc with hc | hc
  · exact .inl (isDigit_of_mem_splitDigits hc)
  · exact h c hc

lemma isPart_of_splitFraction {cs : List Char} (h : ∀ c ∈ (splitFraction cs).2, IsPart c) :
    ∀ c ∈ cs, IsPart c := by
  revert h
  fun_cases splitFraction cs with
  | case1 rest =>
    exact fun h => List.forall_mem_cons.mpr ⟨.inr (by decide), isPart_of_splitDigits h⟩
  | case2 => exact id

lemma isPart_of_exponent? {cs : List Char} {e : Int} (h : exponent? cs = some e) :
    ∀ c ∈ cs, IsPart c := by
  cases cs with
  | nil => exact fun _ hc => nomatch hc
  | cons mark rest =>
    change (if (mark = 'e' ∨ mark = 'E') ∧ (splitSign rest).2 ≠ [] ∧
      (splitSign rest).2.all Char.isDigit then _ else none) = some e at h
    obtain ⟨⟨hmark, -, hdigits⟩, -⟩ := Option.ite_none_right_eq_some.mp h
    refine List.forall_mem_cons.mpr ⟨?_, ?_⟩
    · rcases hmark with rfl | rfl <;> exact .inr (by decide)
    · exact isPart_of_splitSign fun c hc => .inl (List.all_eq_true.mp hdigits c hc)

/-- A text with any other character in it is no numeral. -/
lemma isPart_of_read? {cs : List Char} {n : Numeral} (h : read? cs = some n) :
    ∀ c ∈ cs, IsPart c := by
  change (if _ ∧ _ then none else
    (exponent? (splitFraction (splitDigits (splitSign cs).2).2).2).map _) = some n at h
  obtain ⟨-, hread⟩ := Option.ite_none_left_eq_some.mp h
  obtain ⟨e, hexponent, -⟩ := Option.map_eq_some_iff.mp hread
  have hrest := isPart_of_splitFraction (isPart_of_exponent? hexponent)
  exact isPart_of_splitSign (isPart_of_splitDigits hrest)

example : read? "1_0".toList = none := by decide

end Numeral

/-! ## The grammar -/

namespace Spelling

/-- A weight as it stands before an arrow. -/
@[ext] structure WrittenWeight where
  gap : List Char
  word : List Char
  numeral : Numeral
  gap_ne_nil : gap ≠ []
  blank_gap : Text.Blank gap
  solid_word : Text.Solid word
  read?_word : Numeral.read? word = some numeral
  isFinite_toFloat : numeral.toFloat.isFinite
  toFloat_pos : 0.0 < numeral.toFloat

/-- What stands before an arrow: a source, and possibly a weight. -/
@[ext] structure Head where
  indent : List Char
  source : Symbol
  weight : Option WrittenWeight
  gap : List Char
  blank_indent : Text.Blank indent
  isBlank_source : Text.isBlank source = false
  blank_gap : Text.Blank gap

/-- What stands after an arrow: a replacement, possibly empty. -/
@[ext] structure Tail where
  gap : List Char
  replacement : Sequence
  trailing : List Char
  blank_gap : Text.Blank gap
  solid_replacement : Text.Solid replacement
  blank_trailing : Text.Blank trailing

def WrittenWeight.text (w : WrittenWeight) : List Char := w.gap ++ w.word

def Head.text (h : Head) : List Char :=
  h.indent ++ h.source :: (h.weight.elim [] WrittenWeight.text ++ h.gap)

def Tail.text (t : Tail) : List Char := t.gap ++ (t.replacement ++ t.trailing)

end Spelling

/-- A way to write a production. -/
@[ext] structure Spelling where
  head : Spelling.Head
  tail : Spelling.Tail

namespace Spelling

def text (s : Spelling) : List Char := s.head.text ++ '-' :: '>' :: s.tail.text

/-- The production that is written. -/
def production (s : Spelling) : Production :=
  ⟨s.head.source, s.head.weight.map (·.numeral.toFloat), s.tail.replacement⟩

end Spelling

/-! ## The first arrow -/

namespace Production

lemma splitArrow?_append {head : List Char} (h : ¬['-', '>'] <:+: head) (tail : List Char) :
    splitArrow? (head ++ '-' :: '>' :: tail) = some (head, tail) := by
  induction head with
  | nil => rfl
  | cons c head ih =>
    obtain ⟨hstart, hrest⟩ := not_or.mp (mt List.infix_cons_iff.mpr h)
    have hcons : splitArrow? (c :: (head ++ '-' :: '>' :: tail)) =
        (splitArrow? (head ++ '-' :: '>' :: tail)).map fun parts => (c :: parts.1, parts.2) := by
      apply splitArrow?.eq_3
      rintro rest rfl harrow
      cases head with
      | nil => cases harrow
      | cons d head =>
        cases harrow
        exact hstart ⟨head, rfl⟩
    rw [List.cons_append, hcons, ih hrest]
    rfl

/-- There is no arrow around a source, if there is no minus before it and no greater-than sign
after it. -/
lemma not_arrow_infix {before after : List Char} (hbefore : '-' ∉ before) (hafter : '>' ∉ after)
    (c : Char) : ¬['-', '>'] <:+: before ++ c :: after := by
  induction before with
  | nil =>
    intro h
    rcases List.infix_cons_iff.mp h with ⟨rest, hprefix⟩ | hinfix
    · obtain ⟨-, hrest⟩ := List.cons.inj hprefix
      exact hafter (hrest ▸ List.mem_cons_self)
    · exact hafter (List.IsInfix.mem (by simp) hinfix)
  | cons b before ih =>
    obtain ⟨hb, hbefore⟩ := not_or.mp (mt List.mem_cons.mpr hbefore)
    intro h
    rcases List.infix_cons_iff.mp h with ⟨rest, hprefix⟩ | hinfix
    · exact hb (List.cons.inj hprefix).1
    · exact ih hbefore hinfix

/-! ## What reading asks for -/

lemma readHead_eq_ok_iff {rule : String} {ws : List (List Char)} {c : Symbol} {w : Option Weight} :
    readHead rule ws = .ok (c, w) ↔
      (ws = [[c]] ∧ w = none) ∨
      ∃ token v, ws = [[c], token] ∧ Weight.read? token = some v ∧ w = some v := by
  constructor
  · intro h
    revert h
    fun_cases readHead rule ws with
    | case2 source =>
      intro h
      cases h
      exact .inl ⟨rfl, rfl⟩
    | case4 source token v hv =>
      intro h
      cases h
      exact .inr ⟨token, v, rfl, hv, rfl⟩
    | _ => exact fun h => nomatch h
  · rintro (⟨rfl, rfl⟩ | ⟨token, v, rfl, hv, rfl⟩)
    · rfl
    · simp only [readHead, hv]

lemma readReplacement_eq_ok_iff {rule : String} {cs : List Char} {r : Sequence} :
    readReplacement rule cs = .ok r ↔ Text.trim cs = r ∧ Text.Solid r := by
  have hany : (Text.trim cs).any Text.isBlank = true ↔ ¬Text.Solid (Text.trim cs) := by
    simp [Text.Solid]
  have hread : readReplacement rule cs = if (Text.trim cs).any Text.isBlank then
      .error (.invalidReplacement rule) else .ok (Text.trim cs) := rfl
  rw [hread]
  split
  · rename_i hblank
    constructor
    · intro h
      cases h
    · rintro ⟨rfl, hsolid⟩
      exact absurd hsolid (hany.mp hblank)
  · rename_i hblank
    constructor
    · intro h
      cases h
      exact ⟨rfl, not_not.mp (mt hany.mpr hblank)⟩
    · rintro ⟨rfl, -⟩
      rfl

/-- What has to go well for a text to be read. -/
lemma read_eq_ok_iff {s : String} {p : Production} :
    read s = .ok p ↔ ∃ head tail, splitArrow? (Text.trim s.toList) = some (head, tail) ∧
      readHead (String.ofList (Text.trim s.toList)) (Text.words head) = .ok (p.source, p.weight) ∧
      readReplacement (String.ofList (Text.trim s.toList)) tail = .ok p.replacement := by
  simp only [read]
  generalize Text.trim s.toList = text
  by_cases hempty : text = []
  · subst hempty
    constructor
    · intro h
      cases h
    · rintro ⟨head, tail, hsplit, -⟩
      cases hsplit
  rw [if_neg hempty]
  cases splitArrow? text with
  | none =>
    constructor
    · intro h
      cases h
    · rintro ⟨head, tail, hsplit, -⟩
      cases hsplit
  | some parts =>
    obtain ⟨head, tail⟩ := parts
    constructor
    · intro h
      obtain ⟨⟨source, weight⟩, hhead, h⟩ := bind_eq_ok_iff.mp h
      obtain ⟨replacement, htail, h⟩ := bind_eq_ok_iff.mp h
      cases h
      exact ⟨head, tail, rfl, hhead, htail⟩
    · rintro ⟨head', tail', hsplit, hhead, htail⟩
      cases hsplit
      exact bind_eq_ok_iff.mpr ⟨_, hhead, bind_eq_ok_iff.mpr ⟨_, htail, rfl⟩⟩

end Production

namespace Spelling

/-! ## Heads -/

namespace WrittenWeight

variable (w : WrittenWeight)

lemma word_ne_nil : w.word ≠ [] := by
  intro hnil
  have hread := w.read?_word
  rw [hnil] at hread
  cases hread

lemma weightRead?_word : Weight.read? w.word = some w.numeral.toFloat :=
  Weight.read?_eq_some_iff.mpr ⟨w.numeral, w.read?_word, rfl, w.isFinite_toFloat, w.toFloat_pos⟩

lemma text_append (cs : List Char) : w.text ++ cs = w.gap ++ (w.word ++ cs) :=
  List.append_assoc _ _ _

lemma not_blank_text_append (cs : List Char) : ¬Text.Blank (w.text ++ cs) := by
  intro hblank
  obtain ⟨c, word, hword⟩ := List.exists_cons_of_ne_nil w.word_ne_nil
  have hsolid := w.solid_word c (hword ▸ List.mem_cons_self)
  have hmem : c ∈ w.text ++ cs := by simp [text, hword]
  rw [hblank c hmem] at hsolid
  cases hsolid

lemma not_mem_text : '>' ∉ w.text := by
  intro h
  rcases List.mem_append.mp h with h | h
  · exact absurd (w.blank_gap _ h) (by decide)
  · exact absurd (Numeral.isPart_of_read? w.read?_word _ h) (by simp [Numeral.IsPart])

/-- A weight and the blanks after it can be told apart, also if there is no weight. -/
lemma append_inj {v w : Option WrittenWeight} {gap gap' : List Char} (hgap : Text.Blank gap)
    (hgap' : Text.Blank gap') (h : v.elim [] text ++ gap = w.elim [] text ++ gap') :
    v = w ∧ gap = gap' := by
  cases v with
  | none =>
    cases w with
    | none => exact ⟨rfl, h⟩
    | some w =>
      change gap = w.text ++ gap' at h
      exact absurd (h ▸ hgap) (w.not_blank_text_append gap')
  | some v =>
    cases w with
    | none =>
      change v.text ++ gap = gap' at h
      exact absurd (h ▸ hgap') (v.not_blank_text_append gap)
    | some w =>
      change v.text ++ gap = w.text ++ gap' at h
      rw [text_append, text_append] at h
      obtain ⟨hgaps, hwords⟩ := Text.append_inj_of_run v.blank_gap w.blank_gap
        (v.solid_word.head?_append v.word_ne_nil gap)
        (w.solid_word.head?_append w.word_ne_nil gap') h
      obtain ⟨hword, hrest⟩ := Text.append_inj_of_run v.solid_word w.solid_word hgap.head?
        hgap'.head? hwords
      have hnumeral : some v.numeral = some w.numeral := by
        rw [← v.read?_word, ← w.read?_word, hword]
      exact ⟨congrArg some (WrittenWeight.ext hgaps hword (Option.some.inj hnumeral)), hrest⟩

end WrittenWeight

namespace Head

/-- The first arrow after a head is the arrow of its spelling. -/
lemma not_arrow_infix_text (h : Head) : ¬['-', '>'] <:+: h.text := by
  apply Production.not_arrow_infix
  · intro hmem
    exact absurd (h.blank_indent _ hmem) (by decide)
  · intro hmem
    rcases List.mem_append.mp hmem with hmem | hmem
    · cases hweight : h.weight with
      | none =>
        rw [hweight] at hmem
        cases hmem
      | some w =>
        rw [hweight] at hmem
        exact w.not_mem_text hmem
    · exact absurd (h.blank_gap _ hmem) (by decide)

lemma text_of_weight_eq_none {h : Head} (hweight : h.weight = none) :
    h.text = h.indent ++ ([h.source] ++ h.gap) := by
  rw [text, hweight]
  rfl

lemma text_of_weight_eq_some {h : Head} {w : WrittenWeight} (hweight : h.weight = some w) :
    h.text = h.indent ++ ([h.source] ++ (w.gap ++ (w.word ++ h.gap))) := by
  rw [text, hweight, ← List.append_assoc w.gap]
  rfl

lemma solid_source (h : Head) : Text.Solid [h.source] := by
  intro c hc
  rw [List.mem_singleton.mp hc]
  exact h.isBlank_source

lemma words_text (h : Head) :
    Text.words h.text = [h.source] :: h.weight.elim [] fun w => [w.word] := by
  have hne : [h.source] ≠ [] := List.cons_ne_nil _ _
  cases hweight : h.weight with
  | none =>
    rw [text_of_weight_eq_none hweight, Text.words_append_of_blank h.blank_indent,
      Text.words_append_of_solid hne h.solid_source h.blank_gap.head?,
      Text.words_of_blank h.blank_gap]
    rfl
  | some w =>
    rw [text_of_weight_eq_some hweight, Text.words_append_of_blank h.blank_indent,
      Text.words_append_of_solid hne h.solid_source (w.blank_gap.head?_append w.gap_ne_nil _),
      Text.words_append_of_blank w.blank_gap,
      Text.words_append_of_solid w.word_ne_nil w.solid_word h.blank_gap.head?,
      Text.words_of_blank h.blank_gap]
    rfl

lemma readHead_words_text (rule : String) (h : Head) :
    Production.readHead rule (Text.words h.text) =
      .ok (h.source, h.weight.map (·.numeral.toFloat)) := by
  rw [words_text]
  apply Production.readHead_eq_ok_iff.mpr
  cases h.weight with
  | none => exact .inl ⟨rfl, rfl⟩
  | some w => exact .inr ⟨w.word, _, rfl, w.weightRead?_word, rfl⟩

/-- What is read as a source and a weight is the text of a head. -/
lemma exists_of_readHead {rule : String} {cs : List Char} {c : Symbol} {w : Option Weight}
    (hread : Production.readHead rule (Text.words cs) = .ok (c, w)) :
    ∃ h : Head, h.text = cs ∧ h.source = c ∧ h.weight.map (·.numeral.toFloat) = w := by
  rcases Production.readHead_eq_ok_iff.mp hread with ⟨hwords, rfl⟩ | ⟨token, v, hwords, hv, rfl⟩
  · obtain ⟨indent, gap, rfl, hindent, -, hsource, -, hgap⟩ := Text.words_eq_cons_iff.mp hwords
    have hblank := hsource c List.mem_cons_self
    exact ⟨⟨indent, c, none, gap, hindent, hblank, Text.words_eq_nil_iff.mp hgap⟩, rfl, rfl, rfl⟩
  · obtain ⟨indent, rest, rfl, hindent, -, hsource, hrest, hwords⟩ :=
      Text.words_eq_cons_iff.mp hwords
    obtain ⟨gap, rest', rfl, hgap, hne, htoken, -, hrest'⟩ := Text.words_eq_cons_iff.mp hwords
    obtain ⟨n, hn, rfl, hfinite, hpos⟩ := Weight.read?_eq_some_iff.mp hv
    have hblank := hsource c List.mem_cons_self
    -- The two words do not run together, since the first one is followed by a blank.
    have hgap_ne : gap ≠ [] := by
      rintro rfl
      obtain ⟨d, token, rfl⟩ := List.exists_cons_of_ne_nil hne
      have hfirst := hrest d rfl
      rw [htoken d List.mem_cons_self] at hfirst
      cases hfirst
    let weight : WrittenWeight := ⟨gap, token, n, hgap_ne, hgap, htoken, hn, hfinite, hpos⟩
    let head : Head :=
      ⟨indent, c, some weight, rest', hindent, hblank, Text.words_eq_nil_iff.mp hrest'⟩
    exact ⟨head, @text_of_weight_eq_some head weight rfl, rfl, rfl⟩

/-- The parts of a head can be told from its text. -/
lemma text_injective : Function.Injective text := by
  intro h k htext
  obtain ⟨hindent, hrest⟩ := Text.append_inj_of_run h.blank_indent k.blank_indent
    (by rintro c ⟨⟩; exact h.isBlank_source) (by rintro c ⟨⟩; exact k.isBlank_source) htext
  obtain ⟨hsource, hrest⟩ := List.cons.inj hrest
  obtain ⟨hweight, hgap⟩ := WrittenWeight.append_inj h.blank_gap k.blank_gap hrest
  exact Head.ext hindent hsource hweight hgap

/-- The head with more blanks before it. -/
def indented (h : Head) {before : List Char} (hbefore : Text.Blank before) : Head :=
  { h with
    indent := before ++ h.indent
    blank_indent := Text.blank_append.mpr ⟨hbefore, h.blank_indent⟩ }

lemma text_indented (h : Head) {before : List Char} (hbefore : Text.Blank before) :
    (h.indented hbefore).text = before ++ h.text :=
  List.append_assoc _ _ _

end Head

/-! ## Tails -/

namespace Tail

lemma readReplacement_text (rule : String) (t : Tail) :
    Production.readReplacement rule t.text = .ok t.replacement := by
  apply Production.readReplacement_eq_ok_iff.mpr
  refine ⟨?_, t.solid_replacement⟩
  rw [text, Text.trim_append_of_blank t.blank_gap t.blank_trailing,
    Text.trim_of_solid t.solid_replacement]

/-- What is read as a replacement is the text of a tail. -/
lemma exists_of_readReplacement {rule : String} {cs : List Char} {r : Sequence}
    (hread : Production.readReplacement rule cs = .ok r) :
    ∃ t : Tail, t.text = cs ∧ t.replacement = r := by
  obtain ⟨rfl, hsolid⟩ := Production.readReplacement_eq_ok_iff.mp hread
  obtain ⟨gap, trailing, hgap, htrailing, hsplit⟩ := Text.exists_append_trim_append cs
  exact ⟨⟨gap, Text.trim cs, trailing, hgap, hsolid, htrailing⟩, hsplit.symm, rfl⟩

lemma replacement_eq_of_text_eq {t u : Tail} (h : t.text = u.text) :
    t.replacement = u.replacement := by
  have hread := readReplacement_text "" t
  rw [h, readReplacement_text] at hread
  exact (Except.ok.inj hread).symm

/-- The parts of a tail can be told from its text.  Where the replacement is empty, it is open
which of the blanks stand before it. -/
lemma eq_of_text_eq {t u : Tail} (h : t.text = u.text) (hne : t.replacement ≠ []) : t = u := by
  have hreplacement := replacement_eq_of_text_eq h
  have hne' : u.replacement ≠ [] := hreplacement ▸ hne
  obtain ⟨hgap, hrest⟩ := Text.append_inj_of_run t.blank_gap u.blank_gap
    (t.solid_replacement.head?_append hne _) (u.solid_replacement.head?_append hne' _) h
  rw [hreplacement] at hrest
  exact Tail.ext hgap hreplacement (List.append_cancel_left hrest)

/-- The tail with more blanks after it. -/
def trailed (t : Tail) {after : List Char} (hafter : Text.Blank after) : Tail :=
  { t with
    trailing := t.trailing ++ after
    blank_trailing := Text.blank_append.mpr ⟨t.blank_trailing, hafter⟩ }

lemma text_trailed (t : Tail) {after : List Char} (hafter : Text.Blank after) :
    (t.trailed hafter).text = t.text ++ after := by
  simp only [text, trailed, List.append_assoc]

end Tail

/-! ## Reading -/

/-- A text that is spelled is read as what was spelled. -/
lemma read_text (s : Spelling) : Production.read (String.ofList s.text) = .ok s.production := by
  have htrim : Text.trim s.text =
      Text.trimStart s.head.text ++ '-' :: '>' :: Text.trimEnd s.tail.text := by
    have hend := Text.trimEnd_append_cons (x := '>') (by decide)
      (Text.trimStart s.head.text ++ ['-']) s.tail.text
    rw [Text.trim, text, Text.trimStart_append_cons (by decide)]
    simpa using hend
  -- Trimming may shorten the head, but it does not bring an arrow into it.
  have harrow : ¬['-', '>'] <:+: Text.trimStart s.head.text := fun h =>
    s.head.not_arrow_infix_text (h.trans (List.dropWhile_suffix _).isInfix)
  rw [Production.read_eq_ok_iff, String.toList_ofList]
  refine ⟨Text.trimStart s.head.text, Text.trimEnd s.tail.text, ?_, ?_, ?_⟩
  · rw [htrim, Production.splitArrow?_append harrow]
  · rw [Text.words_trimStart]
    exact s.head.readHead_words_text _
  · have hread := s.tail.readReplacement_text ""
    rw [Production.readReplacement_eq_ok_iff] at hread ⊢
    rwa [Text.trim_trimEnd]

/-- A text that is read is a spelling of what was read. -/
lemma exists_of_read {s : String} {p : Production} (hread : Production.read s = .ok p) :
    ∃ t : Spelling, t.text = s.toList ∧ t.production = p := by
  obtain ⟨head, tail, hsplit, hhead, htail⟩ := Production.read_eq_ok_iff.mp hread
  obtain ⟨h, rfl, hsource, hweight⟩ := Head.exists_of_readHead hhead
  obtain ⟨t, rfl, hreplacement⟩ := Tail.exists_of_readReplacement htail
  obtain ⟨before, after, hbefore, hafter, hs⟩ := Text.exists_append_trim_append s.toList
  refine ⟨⟨h.indented hbefore, t.trailed hafter⟩, ?_, ?_⟩
  · rw [hs, Production.append_of_splitArrow? hsplit, text, Head.text_indented, Tail.text_trailed]
    simp only [List.append_assoc, List.cons_append]
  · obtain ⟨source, weight, replacement⟩ := p
    subst hsource hweight hreplacement
    rfl

lemma head_tail_eq_of_text_eq {t u : Spelling} (h : t.text = u.text) :
    t.head = u.head ∧ t.tail.text = u.tail.text := by
  have hsplit := Production.splitArrow?_append t.head.not_arrow_infix_text t.tail.text
  change Production.splitArrow? t.text = _ at hsplit
  rw [h, text, Production.splitArrow?_append u.head.not_arrow_infix_text] at hsplit
  obtain ⟨hhead, htail⟩ := Prod.mk.inj (Option.some.inj hsplit)
  exact ⟨Head.text_injective hhead.symm, htail.symm⟩

end Spelling

/-- **The texts that are read are the spellings.**  A text is read as a production exactly if it is
a spelling of it; in particular every spelling reads back what was written.  The spelling is
determined by the text, its source, its weight as written, its replacement and all blanks, but for
where the blanks around an empty replacement are cut in two. -/
theorem read_eq_ok_iff_spelling (s : String) :
    (∀ p, Production.read s = .ok p ↔ ∃ t : Spelling, t.text = s.toList ∧ t.production = p) ∧
    (∀ t : Spelling, Production.read (String.ofList t.text) = .ok t.production) ∧
    (∀ t u : Spelling, t.text = s.toList → u.text = s.toList →
      t.head = u.head ∧ t.tail.replacement = u.tail.replacement ∧
        (t.tail.replacement ≠ [] → t = u)) := by
  refine ⟨fun p => ⟨Spelling.exists_of_read, ?_⟩, Spelling.read_text, ?_⟩
  · rintro ⟨t, htext, rfl⟩
    have hread := t.read_text
    rwa [htext, String.ofList_toList] at hread
  · intro t u ht hu
    obtain ⟨hhead, htail⟩ := Spelling.head_tail_eq_of_text_eq (ht.trans hu.symm)
    refine ⟨hhead, Spelling.Tail.replacement_eq_of_text_eq htail, fun hne => ?_⟩
    exact Spelling.ext hhead (Spelling.Tail.eq_of_text_eq htail hne)

/-- A minus with a weight is replaced by a greater-than sign and two arrows. -/
theorem read_eq_ok_iff_spelling_of_minus :
    ∃ t : Spelling, t.text = "\t- +2.50e0->  >->->\u00A0".toList ∧
      t.production = ⟨'-', some 2.5, ['>', '-', '>', '-', '>']⟩ :=
  ((read_eq_ok_iff_spelling "\t- +2.50e0->  >->->\u00A0").1 _).mp (by decide +kernel)

end LSystem
