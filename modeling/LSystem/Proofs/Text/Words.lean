import Mathlib.Data.List.TakeWhile
import LSystem.Text.Blank

/-!
# Words between blanks

Cutting a text into words forgets how many blanks stand between them, and which.  Read backwards, a
text has certain words exactly if it is made up of blanks, the first word, and a rest that does not
start in the middle of a word and has the other words (`words_eq_cons_iff`).

Trimming is the same for a single stretch of text: what is left after it stands between blanks, and
a stretch without blanks is all that is left of its text, however it was padded.
-/

namespace LSystem.Text

/-- A possibly empty run of blanks. -/
def Blank (cs : List Char) : Prop := ∀ c ∈ cs, isBlank c = true

instance (cs : List Char) : Decidable (Blank cs) := List.decidableBAll _ cs

/-- A possibly empty run without blanks. -/
def Solid (cs : List Char) : Prop := ∀ c ∈ cs, isBlank c = false

lemma blank_nil : Blank [] := fun _ h => nomatch h

lemma blank_cons {c : Char} {cs : List Char} : Blank (c :: cs) ↔ isBlank c = true ∧ Blank cs :=
  List.forall_mem_cons

lemma blank_append {cs ds : List Char} : Blank (cs ++ ds) ↔ Blank cs ∧ Blank ds :=
  List.forall_mem_append

lemma Blank.head? {cs : List Char} (h : Blank cs) : ∀ c ∈ cs.head?, isBlank c = true :=
  fun c hc => h c (List.mem_of_mem_head? hc)

lemma Blank.head?_append {bs : List Char} (h : Blank bs) (hne : bs ≠ []) (cs : List Char) :
    ∀ c ∈ (bs ++ cs).head?, isBlank c = true := by
  cases bs with
  | nil => exact absurd rfl hne
  | cons b bs =>
    rintro c ⟨⟩
    exact h b List.mem_cons_self

lemma Solid.head?_append {cs : List Char} (h : Solid cs) (hne : cs ≠ []) (ds : List Char) :
    ∀ c ∈ (cs ++ ds).head?, isBlank c = false := by
  cases cs with
  | nil => exact absurd rfl hne
  | cons c cs =>
    rintro d ⟨⟩
    exact h c List.mem_cons_self

/-! ## Words -/

lemma words_cons_of_isBlank {c : Char} (h : isBlank c = true) (cs : List Char) :
    words (c :: cs) = words cs := by
  rw [words, List.splitOnP_cons_eq_if_modifyHead, if_pos h]
  rfl

lemma words_append_of_blank {bs : List Char} (h : Blank bs) (cs : List Char) :
    words (bs ++ cs) = words cs := by
  induction bs with
  | nil => rfl
  | cons b bs ih =>
    obtain ⟨hb, hbs⟩ := blank_cons.mp h
    rw [List.cons_append, words_cons_of_isBlank hb, ih hbs]

lemma words_of_blank {bs : List Char} (h : Blank bs) : words bs = [] := by
  have happend := words_append_of_blank h []
  rwa [List.append_nil, words_nil] at happend

/-- A solid stretch that is followed by a blank or by nothing is a word. -/
lemma words_append_of_solid {w rest : List Char} (hne : w ≠ []) (hw : Solid w)
    (hrest : ∀ c ∈ rest.head?, isBlank c = true) : words (w ++ rest) = w :: words rest := by
  have hkeep : (!w.isEmpty) = true := by simpa using hne
  cases rest with
  | nil =>
    rw [List.append_nil, words, List.splitOnP_eq_singleton hw, List.filter_cons, if_pos hkeep]
    rfl
  | cons b rest =>
    have hb : isBlank b = true := hrest b rfl
    rw [words_cons_of_isBlank hb, words, List.splitOnP_append_cons_of_forall_mem hw b hb,
      List.filter_cons, if_pos hkeep]
    rfl

/-- Every text is empty, or it starts with a blank, or with a word. -/
lemma exists_word_append {c : Char} (cs : List Char) (hc : isBlank c = false) :
    ∃ w rest, c :: cs = w ++ rest ∧ w ≠ [] ∧ Solid w ∧ ∀ b ∈ rest.head?, isBlank b = true := by
  refine ⟨(c :: cs).takeWhile (!isBlank ·), (c :: cs).dropWhile (!isBlank ·),
    List.takeWhile_append_dropWhile.symm, ?_, ?_, ?_⟩
  · simp [hc]
  · intro d hd
    simpa using List.mem_takeWhile_imp hd
  · intro b hb
    have hstop := List.head?_dropWhile_not (!isBlank ·) (c :: cs)
    rw [hb] at hstop
    simpa using hstop

lemma words_eq_nil_iff {cs : List Char} : words cs = [] ↔ Blank cs := by
  refine ⟨fun h => ?_, words_of_blank⟩
  induction cs with
  | nil => exact blank_nil
  | cons c cs ih =>
    cases hc : isBlank c with
    | true =>
      rw [words_cons_of_isBlank hc] at h
      exact blank_cons.mpr ⟨hc, ih h⟩
    | false =>
      obtain ⟨w, rest, hsplit, hne, hw, hrest⟩ := exists_word_append cs hc
      rw [hsplit, words_append_of_solid hne hw hrest] at h
      cases h

/-- The first word stands between blanks, and the other words are those of the rest. -/
lemma words_eq_cons_iff {cs w : List Char} {ws : List (List Char)} :
    words cs = w :: ws ↔ ∃ bs rest, cs = bs ++ (w ++ rest) ∧ Blank bs ∧ w ≠ [] ∧ Solid w ∧
      (∀ c ∈ rest.head?, isBlank c = true) ∧ words rest = ws := by
  constructor
  · intro h
    induction cs with
    | nil => cases h
    | cons c cs ih =>
      cases hc : isBlank c with
      | true =>
        rw [words_cons_of_isBlank hc] at h
        obtain ⟨bs, rest, rfl, hbs, hword⟩ := ih h
        exact ⟨c :: bs, rest, rfl, blank_cons.mpr ⟨hc, hbs⟩, hword⟩
      | false =>
        obtain ⟨w', rest, hsplit, hne, hw', hrest⟩ := exists_word_append cs hc
        rw [hsplit, words_append_of_solid hne hw' hrest] at h
        cases h
        exact ⟨[], rest, hsplit, blank_nil, hne, hw', hrest, rfl⟩
  · rintro ⟨bs, rest, rfl, hbs, hne, hw, hrest, rfl⟩
    rw [words_append_of_blank hbs, words_append_of_solid hne hw hrest]

/-! ## Trimming -/

lemma trimEnd_eq (cs : List Char) : trimEnd cs = (trimStart cs.reverse).reverse := rfl

lemma blank_reverse {cs : List Char} : Blank cs.reverse ↔ Blank cs := by
  simp only [Blank, List.mem_reverse]

lemma trimStart_append_of_blank {bs : List Char} (h : Blank bs) (cs : List Char) :
    trimStart (bs ++ cs) = trimStart cs :=
  List.dropWhile_append_of_pos h

lemma trimEnd_append_of_blank {bs : List Char} (h : Blank bs) (cs : List Char) :
    trimEnd (cs ++ bs) = trimEnd cs := by
  rw [trimEnd_eq, trimEnd_eq, List.reverse_append,
    trimStart_append_of_blank (blank_reverse.mpr h)]

lemma exists_append_trimStart (cs : List Char) : ∃ bs, Blank bs ∧ cs = bs ++ trimStart cs :=
  ⟨cs.takeWhile isBlank, fun _ hc => List.mem_takeWhile_imp hc,
    List.takeWhile_append_dropWhile.symm⟩

lemma exists_trimEnd_append (cs : List Char) : ∃ bs, Blank bs ∧ cs = trimEnd cs ++ bs := by
  obtain ⟨bs, hbs, hsplit⟩ := exists_append_trimStart cs.reverse
  refine ⟨bs.reverse, blank_reverse.mpr hbs, ?_⟩
  rw [trimEnd_eq, ← List.reverse_append, ← hsplit, List.reverse_reverse]

/-- What is left after trimming stands between blanks. -/
lemma exists_append_trim_append (cs : List Char) :
    ∃ before after, Blank before ∧ Blank after ∧ cs = before ++ (trim cs ++ after) := by
  obtain ⟨before, hbefore, hstart⟩ := exists_append_trimStart cs
  obtain ⟨after, hafter, hend⟩ := exists_trimEnd_append (trimStart cs)
  refine ⟨before, after, hbefore, hafter, ?_⟩
  rw [trim, ← hend, ← hstart]

lemma trimStart_of_solid {cs : List Char} (h : Solid cs) : trimStart cs = cs := by
  cases cs with
  | nil => rfl
  | cons c cs => exact List.dropWhile_cons_of_neg (by simp [h c List.mem_cons_self])

lemma trim_of_solid {cs : List Char} (h : Solid cs) : trim cs = cs := by
  have hreverse : Solid cs.reverse := fun c hc => h c (List.mem_reverse.mp hc)
  rw [trim, trimStart_of_solid h, trimEnd_eq, trimStart_of_solid hreverse, List.reverse_reverse]

/-- Padding a text does not change what is left of it. -/
lemma trim_append_of_blank {before after : List Char} (hbefore : Blank before)
    (hafter : Blank after) (cs : List Char) : trim (before ++ (cs ++ after)) = trim cs := by
  rw [trim, trim, trimStart_append_of_blank hbefore, trimStart, List.dropWhile_append]
  split
  · rename_i hempty
    have hcs : trimStart cs = [] := List.isEmpty_iff.mp hempty
    have hrest : after.dropWhile isBlank = [] := List.dropWhile_eq_nil_iff.mpr hafter
    rw [hcs, hrest]
  · exact trimEnd_append_of_blank hafter _

lemma trimStart_append_cons {x : Char} (hx : isBlank x = false) (cs ds : List Char) :
    trimStart (cs ++ x :: ds) = trimStart cs ++ x :: ds := by
  have hstop : (x :: ds).dropWhile isBlank = x :: ds :=
    List.dropWhile_cons_of_neg (by simp [hx])
  rw [trimStart, List.dropWhile_append, trimStart]
  split
  · rename_i hempty
    rw [List.isEmpty_iff.mp hempty, hstop, List.nil_append]
  · rfl

lemma trimEnd_append_cons {x : Char} (hx : isBlank x = false) (cs ds : List Char) :
    trimEnd (cs ++ x :: ds) = cs ++ x :: trimEnd ds := by
  rw [trimEnd_eq, List.reverse_append, List.reverse_cons, List.append_assoc, List.singleton_append,
    trimStart_append_cons hx]
  simp [trimEnd_eq]

lemma words_trimStart (cs : List Char) : words (trimStart cs) = words cs := by
  obtain ⟨bs, hbs, hsplit⟩ := exists_append_trimStart cs
  rw [← words_append_of_blank hbs, ← hsplit]

lemma trim_trimEnd (cs : List Char) : trim (trimEnd cs) = trim cs := by
  obtain ⟨bs, hbs, hsplit⟩ := exists_trimEnd_append cs
  have hpad := trim_append_of_blank blank_nil hbs (trimEnd cs)
  rw [List.nil_append, ← hsplit] at hpad
  exact hpad.symm

/-! ## Runs -/

/-- Where the blanks at the start of a text end, or the word there, is determined by the text. -/
lemma append_inj_of_run {b : Bool} {cs ds rest rest' : List Char} (hcs : ∀ c ∈ cs, isBlank c = b)
    (hds : ∀ d ∈ ds, isBlank d = b) (hrest : ∀ c ∈ rest.head?, isBlank c = !b)
    (hrest' : ∀ c ∈ rest'.head?, isBlank c = !b) (h : cs ++ rest = ds ++ rest') :
    cs = ds ∧ rest = rest' := by
  have htake : ∀ {cs rest : List Char}, (∀ c ∈ cs, isBlank c = b) →
      (∀ c ∈ rest.head?, isBlank c = !b) → (cs ++ rest).takeWhile (isBlank · == b) = cs := by
    intro cs rest hcs hrest
    rw [List.takeWhile_append_of_pos fun c hc => beq_iff_eq.mpr (hcs c hc)]
    cases rest with
    | nil => exact List.append_nil cs
    | cons c rest =>
      rw [List.takeWhile_cons_of_neg (by simp [hrest c rfl]), List.append_nil]
  have hrun : cs = ds := by
    rw [← htake hcs hrest, h, htake hds hrest']
  subst hrun
  exact ⟨rfl, List.append_cancel_left h⟩

end LSystem.Text
