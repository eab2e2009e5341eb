import Mathlib
import LSystem.Drawing.Strokes
import LSystem.Proofs.Turtle.Point

/-!
# Strokes and the segments they draw

Strokes grow one segment at a time: a segment that starts where the pen is lengthens the last stroke
by a point, and any other segment opens a stroke of its own (`Grows`, `grows_strokesOf`).  All laws
below are inductions over the segments with this step.

The pairs of neighbouring points of all strokes, in order, are the `links` of the strokes.  A link
knows the number of its stroke and its place there.  When strokes grow, one link is added at the
end, so there is a link for each segment.  The main statement says what it has to do with the
segment: it stops where the segment does; it starts where the segment does, bit by bit if it opens a
stroke, and numerically otherwise; and it opens a stroke exactly if the segment does not continue
the one before.
-/

namespace LSystem.Drawing

/-! ## The last run -/

variable {segments : List Segment} {s t : Segment}

/-- The last of some segments is the last one of the last run. -/
lemma exists_runs_eq (h : segments.getLast? = some t) :
    ∃ before run, runs segments = before ++ [run ++ [t]] := by
  have hsegments : segments ≠ [] := by
    rintro rfl
    cases h
  have hruns : runs segments ≠ [] := List.splitBy_ne_nil.mpr hsegments
  obtain hnil | ⟨before, last, hlast⟩ := List.eq_nil_or_concat' (runs segments)
  · exact absurd hnil hruns
  obtain rfl | ⟨run, t', rfl⟩ := List.eq_nil_or_concat' last
  · have hmem : [] ∈ runs segments := by
      rw [hlast]
      exact List.mem_concat_self
    exact absurd hmem (List.nil_notMem_splitBy _ _)
  · have hflatten : (runs segments).flatten = segments := List.flatten_splitBy _ _
    rw [← hflatten, hlast, List.flatten_append, List.flatten_singleton, ← List.append_assoc,
      List.getLast?_concat, Option.some_inj] at h
    exact ⟨before, run, h ▸ hlast⟩

/-- A segment that does not continue the last one is a run of its own. -/
lemma runs_concat_of_break (h : ∀ t ∈ segments.getLast?, t.continues s = false) :
    runs (segments ++ [s]) = runs segments ++ [[s]] := by
  refine List.splitBy_append ?_
  intro t ht s' hs'
  cases hs'
  exact h t ht

/-- A segment that continues the last one belongs to its run. -/
lemma runs_concat_of_continues {before : List (List Segment)} {run : List Segment}
    (h : runs segments = before ++ [run ++ [t]]) (hs : t.continues s = true) :
    runs (segments ++ [s]) = before ++ [run ++ [t, s]] := by
  obtain ⟨hflatten, hnil, hchain, hbreak⟩ := List.splitBy_eq_iff.mp h
  rw [List.isChain_append] at hbreak
  obtain ⟨hbefore, -, hlast⟩ := hbreak
  refine List.splitBy_eq_iff.mpr ⟨?_, ?_, ?_, ?_⟩
  · simp [hflatten]
  · simpa using hnil
  · intro m hm
    rcases List.mem_append.mp hm with hm | hm
    · exact hchain m (List.mem_append_left _ hm)
    · cases List.mem_singleton.mp hm
      have hrun := hchain (run ++ [t]) (List.mem_append_right _ List.mem_cons_self)
      rw [List.append_cons]
      refine hrun.append (.singleton s) ?_
      intro t' ht' s' hs'
      rw [List.getLast?_concat] at ht'
      cases ht'
      cases hs'
      exact hs
  · refine List.isChain_append.mpr ⟨hbefore, .singleton _, ?_⟩
    intro a ha b hb
    cases hb
    obtain ⟨hane, hbne, hfalse⟩ := hlast a ha _ rfl
    refine ⟨hane, by simp, ?_⟩
    cases run <;> exact hfalse

/-! ## The growth of strokes -/

/-- The strokes of a list of segments. -/
def strokesOf (segments : List Segment) : List (List Point) := (runs segments).map strokeOfRun

/-- Where the pen is after some strokes. -/
def pen? (strokes : List (List Point)) : Option Point := strokes.getLast?.bind List.getLast?

/-- Strokes grow by a segment. -/
inductive Grows (s : Segment) : List (List Point) → List (List Point) → Prop
  /-- The last stroke goes on from where the pen is. -/
  | goesOn {strokes : List (List Point)} {stroke : List Point} {p : Point} (hne : stroke ≠ [])
      (h : p.meets s.start = true) :
      Grows s (strokes ++ [stroke ++ [p]]) (strokes ++ [stroke ++ [p, s.stop]])
  /-- A stroke is opened. -/
  | opens {strokes : List (List Point)} (h : ∀ p ∈ pen? strokes, p.meets s.start = false) :
      Grows s strokes (strokes ++ [[s.start, s.stop]])

lemma exists_strokeOfRun_eq (run : List Segment) (t : Segment) :
    ∃ points ≠ [], ∀ more, strokeOfRun (run ++ t :: more) =
      points ++ t.stop :: more.map Segment.stop := by
  cases run with
  | nil => exact ⟨[t.start], by simp, fun more => rfl⟩
  | cons first rest =>
    refine ⟨first.start :: first.stop :: rest.map Segment.stop, by simp, fun more => ?_⟩
    simp [strokeOfRun]

lemma pen?_strokesOf (segments : List Segment) :
    pen? (strokesOf segments) = segments.getLast?.map Segment.stop := by
  cases hlast : segments.getLast? with
  | none =>
    rw [List.getLast?_eq_none_iff.mp hlast]
    rfl
  | some t =>
    obtain ⟨before, run, hruns⟩ := exists_runs_eq hlast
    obtain ⟨points, -, hpoints⟩ := exists_strokeOfRun_eq run t
    rw [strokesOf, hruns, List.map_append, List.map_singleton, hpoints, pen?, List.getLast?_concat]
    exact List.getLast?_concat

/-- **The step.**  One more segment lets the strokes grow by it. -/
lemma grows_strokesOf (segments : List Segment) (s : Segment) :
    Grows s (strokesOf segments) (strokesOf (segments ++ [s])) := by
  by_cases hbreak : ∀ t ∈ segments.getLast?, t.continues s = false
  · have hruns := runs_concat_of_break hbreak
    have hpen : ∀ p ∈ pen? (strokesOf segments), p.meets s.start = false := by
      intro p hp
      rw [pen?_strokesOf] at hp
      obtain ⟨t, ht, rfl⟩ := Option.map_eq_some_iff.mp hp
      exact hbreak t ht
    have hstrokes : strokesOf (segments ++ [s]) = strokesOf segments ++ [[s.start, s.stop]] := by
      rw [strokesOf, hruns, List.map_append]
      rfl
    exact hstrokes ▸ .opens hpen
  · push Not at hbreak
    obtain ⟨t, ht, hs⟩ := hbreak
    obtain ⟨before, run, hruns⟩ := exists_runs_eq ht
    obtain ⟨points, hne, hpoints⟩ := exists_strokeOfRun_eq run t
    have hcontinues := Bool.eq_true_of_not_eq_false hs
    rw [strokesOf, strokesOf, hruns, runs_concat_of_continues hruns hcontinues, List.map_append,
      List.map_append, List.map_singleton, List.map_singleton, hpoints, hpoints]
    exact .goesOn hne hcontinues

/-! ## Links -/

/-- A pair of neighbouring points in strokes. -/
structure Link where
  /-- The number of the stroke. -/
  stroke : Nat
  /-- How many pairs of the stroke come before. -/
  place : Nat
  start : Point
  stop : Point
deriving DecidableEq, Repr

/-- The pairs of neighbouring points of a part of a stroke that begins at a place. -/
def linksFrom (stroke place : Nat) : List Point → List Link
  | p :: q :: rest => ⟨stroke, place, p, q⟩ :: linksFrom stroke (place + 1) (q :: rest)
  | _ => []

/-- The pairs of neighbouring points of strokes, in order. -/
def links (strokes : List (List Point)) : List Link :=
  strokes.zipIdx.flatMap fun (stroke, k) => linksFrom k 0 stroke

lemma linksFrom_concat (stroke place : Nat) (points : List Point) (p q : Point) :
    linksFrom stroke place (points ++ [p, q]) =
      linksFrom stroke place (points ++ [p]) ++ [⟨stroke, place + points.length, p, q⟩] := by
  induction points generalizing place with
  | nil => rfl
  | cons a points ih =>
    have hplace : place + 1 + points.length = place + (a :: points).length := by
      rw [List.length_cons]
      omega
    cases points with
    | nil => rfl
    | cons b points =>
      have hrest := ih (place + 1)
      rw [hplace] at hrest
      exact congrArg (⟨stroke, place, a, b⟩ :: ·) hrest

lemma links_concat (strokes : List (List Point)) (stroke : List Point) :
    links (strokes ++ [stroke]) = links strokes ++ linksFrom strokes.length 0 stroke := by
  simp [links, List.zipIdx_append]

lemma length_linksFrom (stroke place : Nat) (points : List Point) :
    (linksFrom stroke place points).length = points.length - 1 := by
  induction points generalizing place with
  | nil => rfl
  | cons p points ih =>
    cases points with
    | nil => rfl
    | cons q points =>
      rw [linksFrom, List.length_cons, ih]
      simp

lemma length_links (strokes : List (List Point)) :
    (links strokes).length = (strokes.map fun stroke => stroke.length - 1).sum := by
  induction strokes using List.reverseRecOn with
  | nil => rfl
  | append_singleton strokes stroke ih =>
    rw [links_concat, List.length_append, ih, length_linksFrom, List.map_append, List.sum_append]
    simp

/-! ### Their growth -/

/-- What growing by a segment does: the last stroke goes on, and a link is added behind its last
link; or a stroke is opened, and its first link is added. -/
lemma Grows.cases_links {strokes strokes' : List (List Point)} (h : Grows s strokes strokes') :
    (∃ before last, links strokes = before ++ [last] ∧ pen? strokes = some last.stop ∧
        last.stop.meets s.start = true ∧ strokes'.length = strokes.length ∧
        links strokes' =
          links strokes ++ [⟨last.stroke, last.place + 1, last.stop, s.stop⟩]) ∨
      (∀ p ∈ pen? strokes, p.meets s.start = false) ∧ strokes'.length = strokes.length + 1 ∧
        links strokes' = links strokes ++ [⟨strokes.length, 0, s.start, s.stop⟩] := by
  cases h with
  | @goesOn strokes stroke p hne hmeets =>
    obtain hnil | ⟨points, q, rfl⟩ := List.eq_nil_or_concat' stroke
    · exact absurd hnil hne
    have hlinks : links (strokes ++ [points ++ [q] ++ [p]]) =
        links strokes ++ linksFrom strokes.length 0 (points ++ [q]) ++
          [⟨strokes.length, points.length, q, p⟩] := by
      rw [links_concat, List.append_assoc points, List.singleton_append, linksFrom_concat,
        Nat.zero_add, List.append_assoc]
    refine .inl ⟨_, _, hlinks, ?_, hmeets, by simp, ?_⟩
    · rw [pen?, List.getLast?_concat]
      exact List.getLast?_concat
    · rw [links_concat, links_concat, linksFrom_concat, List.append_assoc]
      simp
  | opens hpen =>
    refine .inr ⟨hpen, by simp, ?_⟩
    rw [links_concat]
    rfl

lemma Grows.pen?_eq {strokes strokes' : List (List Point)} (h : Grows s strokes strokes') :
    pen? strokes' = some s.stop := by
  cases h <;> simp [pen?]

/-- The last link belongs to the last stroke. -/
lemma stroke_getLast?_links (segments : List Segment) :
    ∀ last ∈ (links (strokesOf segments)).getLast?,
      last.stroke + 1 = (strokesOf segments).length := by
  induction segments using List.reverseRecOn with
  | nil => exact fun last hlast => absurd hlast (by simp [strokesOf, links])
  | append_singleton segments s ih =>
    rcases (grows_strokesOf segments s).cases_links with
      ⟨before, last, hlast, -, -, hlength, hlinks⟩ | ⟨-, hlength, hlinks⟩
    · rw [hlinks, hlength]
      rw [hlast] at ih
      intro link hlink
      rw [List.getLast?_concat] at hlink
      cases hlink
      exact ih last List.getLast?_concat
    · rw [hlinks, hlength]
      intro link hlink
      rw [List.getLast?_concat] at hlink
      cases hlink
      rfl

/-- A link goes on from another one, or is the first of the next stroke. -/
def Link.IsNext (a b : Link) : Prop :=
  b.place = a.place + 1 ∧ b.stroke = a.stroke ∨ b.place = 0 ∧ b.stroke = a.stroke + 1

lemma isChain_links (segments : List Segment) :
    (links (strokesOf segments)).IsChain Link.IsNext := by
  induction segments using List.reverseRecOn with
  | nil => exact .nil
  | append_singleton segments s ih =>
    have hstroke := stroke_getLast?_links segments
    rcases (grows_strokesOf segments s).cases_links with
      ⟨before, last, hlast, -, -, -, hlinks⟩ | ⟨-, -, hlinks⟩
    · rw [hlinks]
      refine ih.append (.singleton _) ?_
      intro a ha b hb
      rw [hlast, List.getLast?_concat] at ha
      cases ha
      cases hb
      exact .inl ⟨rfl, rfl⟩
    · rw [hlinks]
      refine ih.append (.singleton _) ?_
      intro a ha b hb
      cases hb
      exact .inr ⟨rfl, (hstroke a ha).symm⟩

/-! ## What strokes draw -/

/-- A link stands for a segment, the one before that segment being given. -/
structure Link.Draws (link : Link) (previous : Option Segment) (s : Segment) : Prop where
  stop : link.stop = s.stop
  /-- A stroke opens exactly where the segment begins. -/
  start_eq : link.place = 0 → link.start = s.start
  /-- A stroke goes on from a point that is numerically the same. -/
  start_meets : link.place ≠ 0 → link.start.meets s.start = true
  /-- A stroke is opened where the segment does not go on from the one before. -/
  opens_iff : link.place = 0 ↔ ∀ t ∈ previous, t.stop.meets s.start = false

/-- The link that is added for a segment draws it. -/
lemma exists_links_concat (segments : List Segment) (s : Segment) :
    ∃ link, links (strokesOf (segments ++ [s])) = links (strokesOf segments) ++ [link] ∧
      link.Draws segments.getLast? s := by
  have hpen := pen?_strokesOf segments
  rcases (grows_strokesOf segments s).cases_links with
    ⟨before, last, -, hlast, hmeets, -, hlinks⟩ | ⟨hbreak, -, hlinks⟩
  · refine ⟨_, hlinks, rfl, nofun, fun _ => hmeets, ?_⟩
    refine iff_of_false (Nat.succ_ne_zero _) ?_
    intro hfalse
    obtain ⟨t, ht, hstop⟩ := Option.map_eq_some_iff.mp (hpen.symm.trans hlast)
    rw [← hstop, hfalse t ht] at hmeets
    cases hmeets
  · refine ⟨_, hlinks, rfl, fun _ => rfl, fun hne => absurd rfl hne, iff_of_true rfl ?_⟩
    intro t ht
    refine hbreak t.stop ?_
    rw [hpen, Option.mem_def.mp ht]
    rfl

lemma length_links_strokesOf (segments : List Segment) :
    (links (strokesOf segments)).length = segments.length := by
  induction segments using List.reverseRecOn with
  | nil => rfl
  | append_singleton segments s ih =>
    obtain ⟨link, hlinks, -⟩ := exists_links_concat segments s
    rw [hlinks, List.length_append, List.length_append, ih]
    rfl

/-- For each segment there is a link that draws it. -/
lemma exists_draws {segments before after : List Segment} (h : segments = before ++ s :: after) :
    ∃ link, (links (strokesOf segments))[before.length]? = some link ∧
      link.Draws before.getLast? s := by
  induction segments using List.reverseRecOn generalizing after with
  | nil => simp at h
  | append_singleton segments last ih =>
    obtain ⟨link, hlinks, hdraws⟩ := exists_links_concat segments last
    rw [hlinks]
    obtain rfl | ⟨after, last', rfl⟩ := List.eq_nil_or_concat' after
    · obtain ⟨rfl, hs⟩ := List.append_inj' h rfl
      cases hs
      refine ⟨link, ?_, hdraws⟩
      rw [← length_links_strokesOf, List.getElem?_concat_length]
    · rw [← List.cons_append, ← List.append_assoc] at h
      obtain ⟨hsegments, -⟩ := List.append_inj' h rfl
      obtain ⟨link', hlink', hdraws'⟩ := ih hsegments
      refine ⟨link', ?_, hdraws'⟩
      rw [List.getElem?_append_left (List.getElem?_eq_some_iff.mp hlink').1, hlink']

/-! ## The strokes of a drawing -/

lemma two_le_length_of_mem_strokesOf {segments : List Segment} {stroke : List Point}
    (h : stroke ∈ strokesOf segments) : 2 ≤ stroke.length := by
  obtain ⟨run, hrun, rfl⟩ := List.mem_map.mp h
  have hne : run ≠ [] := List.ne_nil_of_mem_splitBy hrun
  have hpos := List.length_pos_iff.mpr hne
  rw [length_strokeOfRun hne]
  omega

lemma getLast?_strokeOfRun (run : List Segment) (t : Segment) :
    (strokeOfRun (run ++ [t])).getLast? = some t.stop := by
  obtain ⟨points, -, hpoints⟩ := exists_strokeOfRun_eq run t
  rw [hpoints]
  exact List.getLast?_concat

/-- Neighbouring strokes do not meet. -/
lemma isChain_strokesOf (segments : List Segment) :
    (strokesOf segments).IsChain fun a b =>
      ∃ p q, a.getLast? = some p ∧ b.head? = some q ∧ p.meets q = false := by
  rw [strokesOf, List.isChain_map]
  refine (List.isChain_getLast_head_splitBy Segment.continues segments).imp ?_
  rintro a b ⟨ha, hb, hfalse⟩
  obtain hnil | ⟨run, t, rfl⟩ := List.eq_nil_or_concat' a
  · exact absurd hnil ha
  obtain ⟨first, rest, rfl⟩ := List.exists_cons_of_ne_nil hb
  rw [List.getLast_concat] at hfalse
  exact ⟨t.stop, first.start, getLast?_strokeOfRun run t, rfl, hfalse⟩

/-- The segments with two numbers are drawn in one stroke. -/
def InOneStroke (d : Drawing) (j k : Nat) : Prop :=
  ∃ a b, (links d.strokes)[j]? = some a ∧ (links d.strokes)[k]? = some b ∧ a.stroke = b.stroke

/-- A segment and the next one are drawn in one stroke exactly if they meet. -/
lemma inOneStroke_iff {d : Drawing} {before after : List Segment} {x y : Segment}
    (h : d.segments.toList = before ++ x :: y :: after) :
    d.InOneStroke before.length (before.length + 1) ↔ x.stop.meets y.start = true := by
  obtain ⟨a, ha, -⟩ := exists_draws h
  rw [List.append_cons] at h
  obtain ⟨b, hb, hdraws⟩ := exists_draws h
  rw [List.length_append, List.length_singleton] at hb
  rw [List.getLast?_concat] at hdraws
  -- The two links are neighbours.
  obtain ⟨hklt, hkget⟩ := List.getElem?_eq_some_iff.mp hb
  have hnext : a.IsNext b := by
    have hchain := List.isChain_iff_getElem.mp (isChain_links d.segments.toList) before.length hklt
    rwa [hkget, (List.getElem?_eq_some_iff.mp ha).2] at hchain
  have hopens : b.place = 0 ↔ x.stop.meets y.start = false := by
    rw [hdraws.opens_iff]
    exact ⟨fun hall => hall x rfl, fun hfalse t ht => Option.mem_some_iff.mp ht ▸ hfalse⟩
  rw [← Bool.not_eq_false, ← hopens]
  constructor
  · rintro ⟨a', b', ha', hb', hstroke⟩ hplace
    cases ha.symm.trans ha'
    cases hb.symm.trans hb'
    rcases hnext with ⟨hplace', -⟩ | ⟨-, hstroke'⟩ <;> omega
  · intro hplace
    rcases hnext with ⟨-, hstroke⟩ | ⟨hplace', -⟩
    · exact ⟨a, b, ha, hb, hstroke.symm⟩
    · exact absurd hplace' hplace

/-- **Strokes draw the segments, and are as long as they can be.**  A stroke has at least two
points, and one point more than it draws segments.  The pairs of neighbouring points of all strokes
are one for each segment, in order.  Each stops where its segment stops; it starts where its segment
starts, bit by bit if it is the first of a stroke, and else at a point that is numerically the same,
so that neither of the two is NaN; and it is the first of a stroke exactly if the segment before, if
there is one, stops at a point that is not numerically the same.  So no stroke could be joined to
the next. -/
theorem strokes_draw_segments (d : Drawing) :
    (∀ stroke ∈ d.strokes, 2 ≤ stroke.length) ∧
    (d.strokes.map fun stroke => stroke.length - 1).sum = d.segments.size ∧
    (links d.strokes).length = d.segments.size ∧
    (∀ before s after, d.segments.toList = before ++ s :: after →
      ∃ link, (links d.strokes)[before.length]? = some link ∧
        link.Draws before.getLast? s ∧
        (link.place ≠ 0 → link.start.IsNumber ∧ s.start.IsNumber)) ∧
    d.strokes.IsChain fun a b =>
      ∃ p q, a.getLast? = some p ∧ b.head? = some q ∧ p.meets q = false := by
  have hstrokes : d.strokes = strokesOf d.segments.toList := rfl
  have hlength : (links d.strokes).length = d.segments.size := by
    rw [hstrokes, length_links_strokesOf, Array.length_toList]
  refine ⟨fun stroke => two_le_length_of_mem_strokesOf, ?_, hlength, ?_, isChain_strokesOf _⟩
  · rw [← length_links, hlength]
  · intro before s after h
    obtain ⟨link, hlink, hdraws⟩ := exists_draws h
    exact ⟨link, hlink, hdraws, fun hplace => Point.isNumber_of_meets (hdraws.start_meets hplace)⟩

/-- A negative zero goes on from a zero, and nothing goes on from NaN, not even NaN. -/
theorem strokes_draw_segments_of_zeros_and_nan :
    let nan : Float32 := 0.0 / 0.0
    let first : Segment := ⟨⟨1.0, 1.0⟩, ⟨0.0, 1.0⟩⟩
    let second : Segment := ⟨⟨-0.0, 1.0⟩, ⟨nan, 1.0⟩⟩
    let third : Segment := ⟨⟨nan, 1.0⟩, ⟨2.0, 2.0⟩⟩
    let d : Drawing := { Drawing.start {} with segments := #[first, second, third] }
    d.strokes = [[first.start, first.stop, second.stop], [third.start, third.stop]] ∧
      first.stop ≠ second.start ∧ second.stop = third.start ∧
      Link.Draws ⟨0, 1, first.stop, second.stop⟩ (some first) second ∧
      Link.Draws ⟨1, 0, third.start, third.stop⟩ (some second) third := by
  intro nan first second third d
  have hstrokes : d.strokes =
      [[first.start, first.stop, second.stop], [third.start, third.stop]] := by decide +kernel
  have hlinks : links d.strokes = [⟨0, 0, first.start, first.stop⟩,
      ⟨0, 1, first.stop, second.stop⟩, ⟨1, 0, third.start, third.stop⟩] := by
    rw [hstrokes]
    rfl
  obtain ⟨-, -, -, hdraws, -⟩ := strokes_draw_segments d
  obtain ⟨link, hlink, hsecond, -⟩ := hdraws [first] second [third] rfl
  obtain ⟨link', hlink', hthird, -⟩ := hdraws [first, second] third [] rfl
  rw [hlinks] at hlink hlink'
  cases hlink
  cases hlink'
  exact ⟨hstrokes, by decide +kernel, rfl, hsecond, hthird⟩

end LSystem.Drawing
