import LSystem.Proofs.Grammar.Listing
import LSystem.Proofs.Grammar.Spelling

/-!
# Listings line by line

A listing is read line by line, and what becomes of a line is said of the line as it stands in the
text.  That lines are trimmed twice, once to tell whether they are skipped and once more when they
are read, is not seen: trimming what is trimmed does nothing, and the rule that a fault names is the
trimmed text (`Production.read_trim`, `Production.rule?_of_read_eq_error`).  So a listing is read
exactly if all its entries are, and else its first refused line is reported, under its number in the
whole text (`Listing.read_eq_ok_iff_lines`, `Listing.read_eq_error_iff_refusedAt`).

A listing that is laid out anew is made of pieces, each a line of the old text with blanks around
it, or a new line that is skipped.  Piece by piece the entries are the old ones, so the same is
read, and where a line is refused, its number grows by the new lines above it
(`Listing.read_relaid`).
-/

namespace LSystem

/-! ## One line -/

lemma Text.trim_trim (cs : List Char) : trim (trim cs) = trim cs := by
  obtain ⟨before, after, hbefore, hafter, hsplit⟩ := exists_append_trim_append cs
  have hpad := trim_append_of_blank hbefore hafter (trim cs)
  rw [← hsplit] at hpad
  exact hpad.symm

/-- The text of the rule that a fault names; a fault of a listing or of a built rule names none. -/
def GrammarError.rule? : GrammarError → Option String
  | missingSeparator rule | missingSymbol rule | invalidReplacement rule => some rule
  | invalidSymbol rule _ | invalidWeight rule _ | unexpectedToken rule _ => some rule
  | empty | noAlternatives _ | atLine _ _ => none

namespace Production

/-- Trimming a text changes neither what is read nor what is reported. -/
lemma read_trim (cs : List Char) :
    read (String.ofList (Text.trim cs)) = read (String.ofList cs) := by
  simp only [read, String.toList_ofList, Text.trim_trim]

lemma read_congr {cs ds : List Char} (h : Text.trim cs = Text.trim ds) :
    read (String.ofList cs) = read (String.ofList ds) := by
  rw [← read_trim cs, h, read_trim]

lemma rule?_of_readHead_eq_error {rule : String} {ws : List (List Char)} {cause : GrammarError}
    (h : readHead rule ws = .error cause) : cause.rule? = some rule := by
  revert h
  fun_cases readHead rule ws <;> (intro h; cases h) <;> rfl

lemma rule?_of_readReplacement_eq_error {rule : String} {tail : List Char} {cause : GrammarError}
    (h : readReplacement rule tail = .error cause) : cause.rule? = some rule := by
  simp only [readReplacement] at h
  split at h <;> cases h
  rfl

/-- A text that is not blank is refused for one of its parts, and the fault names what is left of
the text after trimming. -/
lemma rule?_of_read_eq_error {cs : List Char} {cause : GrammarError}
    (h : read (String.ofList cs) = .error cause) (hcs : Text.trim cs ≠ []) :
    cause.rule? = some (String.ofList (Text.trim cs)) := by
  simp only [read, String.toList_ofList, if_neg hcs] at h
  cases hsplit : splitArrow? (Text.trim cs) with
  | none =>
    rw [hsplit] at h
    cases h
    rfl
  | some parts =>
    obtain ⟨head, tail⟩ := parts
    rw [hsplit] at h
    rcases bind_eq_error_iff.mp h with hhead | ⟨⟨source, weight⟩, -, h⟩
    · exact rule?_of_readHead_eq_error hhead
    · rcases bind_eq_error_iff.mp h with htail | ⟨replacement, -, hpure⟩
      · exact rule?_of_readReplacement_eq_error htail
      · cases hpure

end Production

namespace Listing

/-! ## The lines of a text -/

/-- The lines of a text, as they stand. -/
def lines (text : String) : List (List Char) := text.toList.splitOn '\n'

/-- The text that is made of some lines. -/
def ofLines (ls : List (List Char)) : String := String.ofList (['\n'].intercalate ls)

/-- Whether a line is to hold a production: it is neither blank nor a comment. -/
def isEntry (line : List Char) : Bool := !isSkipped (Text.trim line)

/-- The production on a line as it stands, or what is wrong with it. -/
def production (line : List Char) : Except GrammarError Production :=
  Production.read (String.ofList line)

/-- Line `k` is an entry that is refused, for that cause. -/
def RefusedAt (text : String) (k : Nat) (cause : GrammarError) : Prop :=
  ∃ line, (line, k) ∈ (lines text).zipIdx 1 ∧ isEntry line ∧ production line = .error cause

lemma lines_ne_nil (text : String) : lines text ≠ [] := List.splitOn_ne_nil _ _

lemma not_mem_of_mem_splitOn {c : Char} {cs l : List Char} (h : l ∈ cs.splitOn c) : c ∉ l := by
  induction cs generalizing l with
  | nil =>
    rw [List.splitOn_nil, List.mem_singleton] at h
    exact h ▸ List.not_mem_nil
  | cons d cs ih =>
    obtain ⟨first, rest, hsplit⟩ := List.exists_cons_of_ne_nil (List.splitOn_ne_nil c cs)
    rw [hsplit] at ih
    rw [List.splitOn_cons_eq_if_modifyHead, hsplit] at h
    split at h
    · rcases List.mem_cons.mp h with rfl | h
      · exact List.not_mem_nil
      · exact ih h
    · rename_i hd
      rcases List.mem_cons.mp h with rfl | h
      · have hcd : c ≠ d := fun hcd => hd (beq_iff_eq.mpr hcd.symm)
        exact List.not_mem_cons_of_ne_of_not_mem hcd (ih List.mem_cons_self)
      · exact ih (List.mem_cons_of_mem _ h)

lemma lines_ofLines {ls : List (List Char)} (hbreak : ∀ l ∈ ls, '\n' ∉ l) (hne : ls ≠ []) :
    lines (ofLines ls) = ls := by
  rw [lines, ofLines, String.toList_ofList]
  exact List.splitOn_intercalate '\n' hbreak hne

lemma isEntry_congr {l m : List Char} (h : Text.trim l = Text.trim m) :
    isEntry l = isEntry m := by
  rw [isEntry, h, isEntry]

lemma production_congr {l m : List Char} (h : Text.trim l = Text.trim m) :
    production l = production m :=
  Production.read_congr h

lemma trim_ne_nil_of_isEntry {line : List Char} (h : isEntry line) : Text.trim line ≠ [] := by
  intro hnil
  rw [isEntry, hnil] at h
  cases h

/-! ## Reading by lines -/

section

variable {text : String}

lemma mem_zipIdx_one_iff {α : Type} {as : List α} {a : α} {k : Nat} :
    (a, k) ∈ as.zipIdx 1 ↔ ∃ before after, as = before ++ a :: after ∧ k = before.length + 1 := by
  constructor
  · intro h
    obtain ⟨before, after, hsplit⟩ := List.append_of_mem h
    obtain ⟨as₁, as₂, rfl, -, hrest⟩ := List.zipIdx_eq_append_iff.mp hsplit
    obtain ⟨b, bs, rfl, hhead, -⟩ := List.zipIdx_eq_cons_iff.mp hrest.symm
    cases hhead
    exact ⟨as₁, bs, rfl, Nat.add_comm _ _⟩
  · rintro ⟨before, after, rfl, rfl⟩
    simp [List.zipIdx_append, Nat.add_comm]

lemma forall_mem_zipIdx_iff {α : Type} {as : List α} {n : Nat} {P : α → Prop} :
    (∀ x ∈ as.zipIdx n, P x.1) ↔ ∀ a ∈ as, P a := by
  rw [← List.forall_mem_map, List.zipIdx_map_fst]

/-- The entries of a listing are its lines that are no blank lines and no comments, trimmed. -/
lemma map_fst_entries (text : String) :
    (entries text).map Prod.fst = ((lines text).filter isEntry).map Text.trim := by
  have hentries : entries text =
      (((lines text).map Text.trim).zipIdx 1).filter ((fun line => !isSkipped line) ∘ Prod.fst) :=
    rfl
  rw [hentries, ← List.filter_map, List.zipIdx_map_fst, List.filter_map]
  rfl

/-- A listing is read exactly if each of its entries is, as these productions. -/
lemma read_eq_ok_iff_lines {ps : List Production} :
    read text = .ok ps ↔ ((lines text).filter isEntry).map production = ps.map .ok := by
  have hproductions : (entries text).map lineProduction =
      ((lines text).filter isEntry).map production := by
    change (entries text).map ((fun line => Production.read (String.ofList line)) ∘ Prod.fst) = _
    rw [← List.map_map, map_fst_entries, List.map_map]
    exact List.map_congr_left fun line _ => Production.read_trim line
  rw [read_eq_ok_iff, mapM_eq_ok_iff, hproductions]

lemma numberedLines_eq_append_cons_iff {before after : List (List Char × Nat)}
    {line : List Char × Nat} :
    numberedLines text = before ++ line :: after ↔
      ∃ before' line' after', lines text = before' ++ line' :: after' ∧
        before = (before'.map Text.trim).zipIdx 1 ∧
        line = (Text.trim line', before'.length + 1) ∧
        after = (after'.map Text.trim).zipIdx (before'.length + 2) := by
  have hnumbered : numberedLines text = ((lines text).map Text.trim).zipIdx 1 := rfl
  rw [hnumbered]
  constructor
  · intro h
    obtain ⟨ls₁, ls₂, hsplit, rfl, hrest⟩ := List.zipIdx_eq_append_iff.mp h
    obtain ⟨trimmed, ls₃, rfl, rfl, rfl⟩ := List.zipIdx_eq_cons_iff.mp hrest.symm
    obtain ⟨before', rest', hlines, rfl, hrest'⟩ := List.map_eq_append_iff.mp hsplit
    obtain ⟨line', after', rfl, rfl, rfl⟩ := List.map_eq_cons_iff.mp hrest'
    refine ⟨before', line', after', hlines, rfl, ?_, ?_⟩ <;>
      simp only [List.length_map, Nat.add_comm 1]
  · rintro ⟨before', line', after', hlines, rfl, rfl, rfl⟩
    rw [hlines, List.map_append, List.map_cons, List.zipIdx_append, List.zipIdx_cons]
    simp only [List.length_map, Nat.add_comm 1]

lemma readLine_trim (line : List Char) (k : Nat) :
    readLine (Text.trim line, k) = (production line).mapError (.atLine k) := by
  rw [readLine, Production.read_trim, production]

lemma forall_readLine_iff {before : List (List Char)} :
    (∀ x ∈ (before.map Text.trim).zipIdx 1, !isSkipped x.1 → ∃ p, readLine x = .ok p) ↔
      ∀ l ∈ before, isEntry l → ∃ p, production l = .ok p := by
  simp only [readLine_eq_ok_iff]
  refine (forall_mem_zipIdx_iff (P := fun l => !isSkipped l →
    ∃ p, Production.read (String.ofList l) = .ok p)).trans ?_
  simp only [List.forall_mem_map, Production.read_trim]
  rfl

/-- The first entry that is refused is reported. -/
lemma read_eq_error_iff {e : GrammarError} :
    read text = .error e ↔ ∃ before line after cause, lines text = before ++ line :: after ∧
      (∀ l ∈ before, isEntry l → ∃ p, production l = .ok p) ∧
      isEntry line ∧ production line = .error cause ∧ e = .atLine (before.length + 1) cause := by
  have hread : read text =
      ((numberedLines text).filter fun line => !isSkipped line.1).mapM readLine := rfl
  rw [hread, mapM_filter_eq_error_iff]
  constructor
  · rintro ⟨numbered, entry, rest, hsplit, hbefore, hentry, hfault⟩
    obtain ⟨before, line, after, hlines, rfl, rfl, -⟩ := numberedLines_eq_append_cons_iff.mp hsplit
    rw [readLine_trim, mapError_eq_error_iff] at hfault
    obtain ⟨cause, hcause, rfl⟩ := hfault
    exact ⟨before, line, after, cause, hlines, forall_readLine_iff.mp hbefore, hentry, hcause, rfl⟩
  · rintro ⟨before, line, after, cause, hlines, hbefore, hentry, hcause, rfl⟩
    have hsplit :=
      numberedLines_eq_append_cons_iff.mpr ⟨before, line, after, hlines, rfl, rfl, rfl⟩
    refine ⟨_, _, _, hsplit, forall_readLine_iff.mpr hbefore, hentry, ?_⟩
    rw [readLine_trim, hcause]
    rfl

end

/-- The refused entry with the smallest number is reported. -/
lemma read_eq_error_iff_refusedAt {text : String} {e : GrammarError} :
    read text = .error e ↔ ∃ k cause, e = .atLine k cause ∧ RefusedAt text k cause ∧
      ∀ j < k, ∀ cause', ¬RefusedAt text j cause' := by
  rw [read_eq_error_iff]
  constructor
  · rintro ⟨before, line, after, cause, hlines, hbefore, hentry, hcause, rfl⟩
    refine ⟨_, cause, rfl, ⟨line, mem_zipIdx_one_iff.mpr ⟨before, after, hlines, rfl⟩, hentry,
      hcause⟩, ?_⟩
    rintro j hj cause' ⟨l, hl, hlentry, hlcause⟩
    obtain ⟨before', after', hlines', rfl⟩ := mem_zipIdx_one_iff.mp hl
    have hlt : before'.length < before.length := Nat.lt_of_succ_lt_succ hj
    have hget := congrArg (·[before'.length]?) (hlines'.symm.trans hlines)
    simp only [List.getElem?_append_left hlt, List.getElem?_append_right le_rfl, Nat.sub_self,
      List.getElem?_cons_zero] at hget
    obtain ⟨p, hp⟩ := hbefore l (List.mem_of_getElem? hget.symm) hlentry
    rw [hp] at hlcause
    cases hlcause
  · rintro ⟨k, cause, rfl, ⟨line, hline, hentry, hcause⟩, hfirst⟩
    obtain ⟨before, after, hlines, rfl⟩ := mem_zipIdx_one_iff.mp hline
    refine ⟨before, line, after, cause, hlines, fun l hl hlentry => ?_, hentry, hcause, rfl⟩
    cases hproduction : production l with
    | ok p => exact ⟨p, rfl⟩
    | error cause' =>
      obtain ⟨before', rest, rfl⟩ := List.append_of_mem hl
      have hmem : (l, before'.length + 1) ∈ (lines text).zipIdx 1 :=
        mem_zipIdx_one_iff.mpr ⟨before', rest ++ line :: after, by simp [hlines], rfl⟩
      exact absurd ⟨l, hmem, hlentry, hproduction⟩ (hfirst _ (by simp) cause')

/-- What is reported of an entry names the trimmed line. -/
lemma RefusedAt.rule? {text : String} {k : Nat} {cause : GrammarError}
    (h : RefusedAt text k cause) :
    ∃ line ∈ lines text, cause.rule? = some (String.ofList (Text.trim line)) := by
  obtain ⟨line, hline, hentry, hcause⟩ := h
  exact ⟨line, List.fst_mem_of_mem_zipIdx hline,
    Production.rule?_of_read_eq_error hcause (trim_ne_nil_of_isEntry hentry)⟩

/-! ## Laying out anew -/

/-- A line of a text that was laid out anew. -/
inductive Piece where
  /-- A line of the old text, with blanks around it. -/
  | kept (line before after : List Char) (blank_before : Text.Blank before)
    (blank_after : Text.Blank after) (not_mem_before : '\n' ∉ before) (not_mem_after : '\n' ∉ after)
  /-- A new line that is skipped. -/
  | added (line : List Char) (not_isEntry : isEntry line = false) (not_mem : '\n' ∉ line)

namespace Piece

/-- The line as it was in the old text, if it was there. -/
def old? : Piece → Option (List Char)
  | kept line .. => some line
  | added .. => none

/-- The line as it is in the new text. -/
def new : Piece → List Char
  | kept line before after .. => before ++ (line ++ after)
  | added line .. => line

/-- How many new lines stand above a line that had the number `k` in the old text. -/
def addedAbove : List Piece → Nat → Nat
  | [], _ => 0
  | kept .. :: pieces, k => if k ≤ 1 then 0 else addedAbove pieces (k - 1)
  | added .. :: pieces, k => addedAbove pieces k + 1

/-- The report of a fault, with the number that the line has in the new text. -/
def renumber (pieces : List Piece) : GrammarError → GrammarError
  | .atLine k cause => .atLine (k + addedAbove pieces k) cause
  | e => e

variable {pieces : List Piece}

lemma trim_new {piece : Piece} {line : List Char} (h : piece.old? = some line) :
    Text.trim piece.new = Text.trim line := by
  cases piece with
  | kept line before after hbefore hafter =>
    cases h
    exact Text.trim_append_of_blank hbefore hafter line
  | added => cases h

lemma not_isEntry_new {piece : Piece} (h : piece.old? = none) : isEntry piece.new = false := by
  cases piece with
  | kept => cases h
  | added line hline => exact hline

lemma not_mem_new (hold : ∀ l ∈ pieces.filterMap old?, '\n' ∉ l) :
    ∀ l ∈ pieces.map new, '\n' ∉ l := by
  intro l hl
  obtain ⟨piece, hpiece, rfl⟩ := List.mem_map.mp hl
  cases piece with
  | kept line before after _ _ hbefore hafter =>
    have hline := hold line (List.mem_filterMap.mpr ⟨_, hpiece, rfl⟩)
    simp [new, hline, hbefore, hafter]
  | added line _ hline => exact hline

/-- The entries are the same, piece by piece. -/
lemma map_production_filter (pieces : List Piece) :
    ((pieces.map new).filter isEntry).map production =
      ((pieces.filterMap old?).filter isEntry).map production := by
  induction pieces with
  | nil => rfl
  | cons piece pieces ih =>
    cases hold : piece.old? with
    | none =>
      rw [List.map_cons, List.filter_cons_of_neg (by simp [not_isEntry_new hold]),
        List.filterMap_cons_none hold, ih]
    | some line =>
      have htrim := trim_new hold
      rw [List.map_cons, List.filterMap_cons_some hold, List.filter_cons, List.filter_cons,
        isEntry_congr htrim]
      split
      · rw [List.map_cons, List.map_cons, ih, production_congr htrim]
      · exact ih

/-- A piece that was kept has as many pieces above it as there were lines, and the new ones. -/
lemma length_add_addedAbove {piece : Piece} {line : List Char} (h : piece.old? = some line)
    (before after : List Piece) :
    (before.filterMap old?).length + 1 +
        addedAbove (before ++ piece :: after) ((before.filterMap old?).length + 1) =
      before.length + 1 := by
  induction before with
  | nil =>
    cases piece with
    | kept => rfl
    | added => cases h
  | cons first before ih =>
    cases first with
    | kept =>
      simp only [List.filterMap_cons, old?, List.length_cons, List.cons_append, addedAbove]
      rw [if_neg (by omega), Nat.add_sub_cancel]
      omega
    | added =>
      simp only [List.filterMap_cons, old?, List.length_cons, List.cons_append, addedAbove]
      omega

/-- A line of the old text has its piece. -/
lemma exists_piece {above below : List (List Char)} {line : List Char}
    (h : pieces.filterMap old? = above ++ line :: below) :
    ∃ before piece after, pieces = before ++ piece :: after ∧ before.filterMap old? = above ∧
      piece.old? = some line := by
  obtain ⟨before, rest, rfl, rfl, hrest⟩ := List.filterMap_eq_append_iff.mp h
  obtain ⟨fresh, piece, after, rfl, hfresh, hpiece, -⟩ := List.filterMap_eq_cons_iff.mp hrest
  refine ⟨before ++ fresh, piece, after, (List.append_assoc _ _ _).symm, ?_, hpiece⟩
  rw [List.filterMap_append, List.filterMap_eq_nil_iff.mpr hfresh, List.append_nil]

end Piece

open Piece in
/-- Laying a listing out anew keeps what is read, and moves what is reported. -/
lemma read_relaid {text : String} {pieces : List Piece}
    (hpieces : pieces.filterMap old? = lines text) :
    read (ofLines (pieces.map new)) = (read text).mapError (renumber pieces) := by
  have hne : pieces.map new ≠ [] := by
    intro hnil
    rw [List.map_eq_nil_iff.mp hnil] at hpieces
    exact lines_ne_nil text hpieces.symm
  have hbreak : ∀ l ∈ pieces.filterMap old?, '\n' ∉ l := by
    intro l hl
    rw [hpieces] at hl
    exact not_mem_of_mem_splitOn hl
  have hlines := lines_ofLines (not_mem_new hbreak) hne
  cases hread : read text with
  | ok ps =>
    rw [read_eq_ok_iff_lines, ← hpieces, ← map_production_filter, ← hlines] at hread
    exact read_eq_ok_iff_lines.mpr hread
  | error e =>
    obtain ⟨before, line, after, cause, hsplit, hbefore, hentry, hcause, rfl⟩ :=
      read_eq_error_iff.mp hread
    obtain ⟨above, piece, below, rfl, rfl, hpiece⟩ := exists_piece (hpieces.trans hsplit)
    have htrim := trim_new hpiece
    rw [isEntry_congr htrim.symm] at hentry
    rw [production_congr htrim.symm] at hcause
    refine read_eq_error_iff.mpr ⟨above.map new, piece.new, below.map new, cause, ?_, ?_, hentry,
      hcause, ?_⟩
    · rw [hlines, List.map_append, List.map_cons]
    · intro l hl hlentry
      obtain ⟨other, hother, rfl⟩ := List.mem_map.mp hl
      cases hold : other.old? with
      | none =>
        rw [not_isEntry_new hold] at hlentry
        cases hlentry
      | some m =>
        have htrim := trim_new hold
        rw [production_congr htrim]
        rw [isEntry_congr htrim] at hlentry
        exact hbefore m (List.mem_filterMap.mpr ⟨other, hother, hold⟩) hlentry
    · rw [renumber, length_add_addedAbove hpiece, List.length_map]

/-! ### Line ends -/

/-- The lines of a text that ends its lines with a carriage return as well. -/
def withReturns : List (List Char) → List (List Char)
  | [] => []
  | [line] => [line]
  | line :: next :: rest => (line ++ ['\r']) :: withReturns (next :: rest)

lemma intercalate_withReturns (ls : List (List Char)) :
    ['\n'].intercalate (withReturns ls) = ['\r', '\n'].intercalate ls := by
  fun_induction withReturns ls with
  | case1 => rfl
  | case2 line => rfl
  | case3 line next rest ih =>
    have hne : withReturns (next :: rest) ≠ [] := by cases rest <;> exact List.cons_ne_nil _ _
    rw [List.intercalate_cons_of_ne_nil hne, ih, List.intercalate_cons_cons]
    simp only [List.append_assoc, List.cons_append, List.nil_append]

lemma map_trim_withReturns (ls : List (List Char)) :
    (withReturns ls).map Text.trim = ls.map Text.trim := by
  fun_induction withReturns ls with
  | case1 => rfl
  | case2 line => rfl
  | case3 line next rest ih =>
    have hreturn : Text.Blank ['\r'] := by decide
    have hline := Text.trim_append_of_blank Text.blank_nil hreturn line
    rw [List.map_cons, ih, List.map_cons]
    exact congrArg (· :: _) hline

lemma not_mem_withReturns {ls : List (List Char)} (h : ∀ l ∈ ls, '\n' ∉ l) :
    ∀ l ∈ withReturns ls, '\n' ∉ l := by
  fun_induction withReturns ls with
  | case1 => exact h
  | case2 line => exact h
  | case3 line next rest ih =>
    obtain ⟨hline, hrest⟩ := List.forall_mem_cons.mp h
    refine List.forall_mem_cons.mpr ⟨?_, ih hrest⟩
    rw [List.mem_append, List.mem_singleton]
    exact not_or.mpr ⟨hline, by decide⟩

/-- What is read depends on the trimmed lines alone. -/
lemma read_congr {text other : String}
    (h : (lines text).map Text.trim = (lines other).map Text.trim) : read text = read other := by
  have hnumbered : numberedLines text = numberedLines other := congrArg (·.zipIdx 1) h
  rw [read, hnumbered, read]

lemma read_withReturns (text : String) :
    read (String.ofList (['\r', '\n'].intercalate (lines text))) = read text := by
  have hne : withReturns (lines text) ≠ [] := by
    intro hnil
    have hmap := map_trim_withReturns (lines text)
    rw [hnil] at hmap
    exact lines_ne_nil text (List.map_eq_nil_iff.mp hmap.symm)
  have hlines : lines (ofLines (withReturns (lines text))) = withReturns (lines text) :=
    lines_ofLines (not_mem_withReturns fun l hl => not_mem_of_mem_splitOn hl) hne
  rw [← intercalate_withReturns]
  apply read_congr
  change (lines (ofLines (withReturns (lines text)))).map Text.trim = _
  rw [hlines, map_trim_withReturns]

/-- **A listing is read line by line.**  It is read exactly if each line that is neither blank nor a
comment is, as the productions of these lines in order.  Else the smallest number of such a line
that is refused is reported with the fault of that line, which names the trimmed line as its rule
and so is no blank text, no fault of a listing and no missing alternative.  Blanks around lines and
skipped lines between them change nothing but the number, which grows by the lines that are new
above it, and carriage returns before the line breaks change nothing at all. -/
theorem read_line_by_line (text : String) :
    (∀ ps, read text = .ok ps ↔ ((lines text).filter isEntry).map production = ps.map .ok) ∧
    (∀ e, read text = .error e ↔ ∃ k cause, e = .atLine k cause ∧ RefusedAt text k cause ∧
      ∀ j < k, ∀ cause', ¬RefusedAt text j cause') ∧
    (∀ k cause, RefusedAt text k cause →
      (∃ line ∈ lines text, cause.rule? = some (String.ofList (Text.trim line))) ∧
      cause ≠ .empty ∧ (∀ n inner, cause ≠ .atLine n inner) ∧ ∀ c, cause ≠ .noAlternatives c) ∧
    (∀ pieces : List Piece, pieces.filterMap Piece.old? = lines text →
      read (ofLines (pieces.map Piece.new)) = (read text).mapError (Piece.renumber pieces)) ∧
    read (String.ofList (['\r', '\n'].intercalate (lines text))) = read text := by
  refine ⟨fun ps => read_eq_ok_iff_lines, fun e => read_eq_error_iff_refusedAt, ?_,
    fun pieces => read_relaid, read_withReturns text⟩
  intro k cause h
  obtain ⟨line, hline, hrule⟩ := h.rule?
  refine ⟨⟨line, hline, hrule⟩, ?_, fun n inner => ?_, fun c => ?_⟩ <;>
    · rintro rfl
      cases hrule

/-- A comment and a blank line are put in, and blanks around two lines. -/
theorem read_line_by_line_of_shifted_fault :
    let text := "F->FF\n X 2 -> ]\nF x -> F\n->"
    let pieces : List Piece :=
      [.added "\t# growth -> F".toList (by decide) (by decide),
        .kept "F->FF".toList "\t".toList [] (by decide) (by decide) (by decide) (by decide),
        .kept " X 2 -> ]".toList [] "\r".toList (by decide) (by decide) (by decide) (by decide),
        .added "\u00A0".toList (by decide) (by decide),
        .kept "F x -> F".toList " ".toList " ".toList (by decide) (by decide) (by decide)
          (by decide),
        .kept "->".toList [] [] (by decide) (by decide) (by decide) (by decide)]
    let cause := GrammarError.invalidWeight "F x -> F" "x"
    pieces.filterMap Piece.old? = lines text ∧
      ofLines (pieces.map Piece.new) =
        "\t# growth -> F\n\tF->FF\n X 2 -> ]\r\n\u00A0\n F x -> F \n->" ∧
      read text = .error (.atLine 3 cause) ∧
      read (ofLines (pieces.map Piece.new)) = .error (.atLine 5 cause) := by
  intro text pieces cause
  have hpieces : pieces.filterMap Piece.old? = lines text := by decide +kernel
  have hread : read text = .error (.atLine 3 cause) :=
    refusal?_eq_some_iff.mp (by decide +kernel)
  refine ⟨hpieces, by decide +kernel, hread, ?_⟩
  obtain ⟨-, -, -, hrelaid, -⟩ := read_line_by_line text
  rw [hrelaid pieces hpieces, hread]
  rfl

end Listing

end LSystem
