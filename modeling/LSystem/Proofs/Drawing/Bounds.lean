import Mathlib
import LSystem.Drawing.Bounds
import LSystem.Proofs.Number.Monotone
import LSystem.Proofs.Turtle.Point

/-!
# Bounds are tight

A drawing covers the ends of its segments and the points of its marks, a circle being covered if two
corners of the square around it are.  If no coordinate of these points is NaN, then its bounds are
the smallest box that covers them: no coordinate lies outside, and each of the four sides passes
through one.  There are no bounds exactly if there is nothing to cover.

Each side is accumulated on its own, by a fold that starts from an infinity and keeps one of two
numbers.  An infinity is never preferred to a number, so the first point takes its place and the
result is one of the coordinates (`Prefers.foldl_extreme`).  A circle pulls each side with one of
its corners only, which is enough since rounding leaves the lower corner below the upper one.
-/

namespace LSystem

/-! ## Covered points -/

/-- The points that a mark covers. -/
def Mark.coveredPoints : Mark → List Point
  | point p => [p]
  | circle center radius =>
    [center - .diagonal radius.abs, center + .diagonal radius.abs]
  | polyline points => points

/-- The points that a drawing covers. -/
def Drawing.coveredPoints (d : Drawing) : List Point :=
  endpoints d.segments.toList ++
    d.marks.values.flatMap fun group => group.toList.flatMap Mark.coveredPoints

/-- A box covers some points, axis by axis, and each of its sides passes through one of them. -/
structure Box.TightAround (box : Box) (points : List Point) : Prop where
  lower_le : ∀ p ∈ points, box.lower.x ≤ p.x ∧ box.lower.y ≤ p.y
  le_upper : ∀ p ∈ points, p.x ≤ box.upper.x ∧ p.y ≤ box.upper.y
  left : ∃ p ∈ points, p.x = box.lower.x
  bottom : ∃ p ∈ points, p.y = box.lower.y
  right : ∃ p ∈ points, p.x = box.upper.x
  top : ∃ p ∈ points, p.y = box.upper.y

/-! ## Folds that prefer one of two numbers -/

/-- The operation keeps one of two numbers, one that neither of them is preferred to. -/
structure Prefers (keep : Float32 → Float32 → Float32) (le : Float32 → Float32 → Prop) :
    Prop where
  refl : ∀ {a}, a.isNaN = false → le a a
  trans : ∀ {a b c}, le a b → le b c → le a c
  keep_eq : ∀ a b, keep a b = a ∨ keep a b = b
  keep_left : ∀ {a b}, a.isNaN = false → b.isNaN = false → le (keep a b) a
  keep_right : ∀ {a b}, a.isNaN = false → b.isNaN = false → le (keep a b) b

lemma prefers_lesser : Prefers Point.lesser (· ≤ ·) where
  refl := Single.le_refl
  trans := Single.le_trans
  keep_eq a b := ite_eq_or_eq _ _ _
  keep_left {a b} ha hb := by
    rw [Point.lesser]
    split
    next => exact Single.le_refl ha
    next h => exact Single.le_of_not_lt ha hb h
  keep_right {a b} _ hb := by
    rw [Point.lesser]
    split
    next h => exact Single.le_of_lt h
    next => exact Single.le_refl hb

lemma prefers_greater : Prefers Point.greater (· ≥ ·) where
  refl := Single.le_refl
  trans hab hbc := Single.le_trans hbc hab
  keep_eq a b := ite_eq_or_eq _ _ _
  keep_left {a b} ha hb := by
    rw [Point.greater]
    split
    next => exact Single.le_refl ha
    next h => exact Single.le_of_not_lt hb ha h
  keep_right {a b} _ hb := by
    rw [Point.greater]
    split
    next h => exact Single.le_of_lt h
    next => exact Single.le_refl hb

namespace Prefers

variable {keep : Float32 → Float32 → Float32} {le : Float32 → Float32 → Prop}

/-- A fold over numbers ends with one of them that none is preferred to. -/
lemma foldl_extreme (h : Prefers keep le) {values : List Float32} {a : Float32}
    (hnumbers : ∀ v ∈ a :: values, v.isNaN = false) :
    values.foldl keep a ∈ a :: values ∧ ∀ v ∈ a :: values, le (values.foldl keep a) v := by
  induction values generalizing a with
  | nil =>
    refine ⟨List.mem_cons_self, fun v hv => ?_⟩
    cases List.mem_singleton.mp hv
    exact h.refl (hnumbers _ List.mem_cons_self)
  | cons b values ih =>
    obtain ⟨ha, hb, hvalues⟩ :
        a.isNaN = false ∧ b.isNaN = false ∧ ∀ v ∈ values, v.isNaN = false := by
      simpa only [List.forall_mem_cons] using hnumbers
    have hkeep : (keep a b).isNaN = false := by
      rcases h.keep_eq a b with heq | heq <;> rw [heq] <;> assumption
    obtain ⟨hmem, hle⟩ := ih (List.forall_mem_cons.mpr ⟨hkeep, hvalues⟩)
    obtain ⟨hfirst, hrest⟩ := List.forall_mem_cons.mp hle
    rw [List.foldl_cons]
    refine ⟨?_, List.forall_mem_cons.mpr ⟨?_, List.forall_mem_cons.mpr ⟨?_, hrest⟩⟩⟩
    · rcases List.mem_cons.mp hmem with heq | hmem
      · rw [heq]
        rcases h.keep_eq a b with heq | heq <;> simp [heq]
      · exact List.mem_cons_of_mem _ (List.mem_cons_of_mem _ hmem)
    · exact h.trans hfirst (h.keep_left ha hb)
    · exact h.trans hfirst (h.keep_right ha hb)

/-- If the number from which a fold over the coordinates of points starts is never kept, then the
fold ends with one of the coordinates. -/
lemma foldl_map_extreme (h : Prefers keep le) {points : List Point} (coordinate : Point → Float32)
    {worst : Float32} (hworst : ∀ v, keep worst v = v)
    (hnumbers : ∀ p ∈ points, (coordinate p).isNaN = false) (hne : points ≠ []) :
    (∃ p ∈ points, coordinate p = (points.map coordinate).foldl keep worst) ∧
      ∀ p ∈ points, le ((points.map coordinate).foldl keep worst) (coordinate p) := by
  obtain ⟨p, points, rfl⟩ := List.exists_cons_of_ne_nil hne
  have hvalues : ∀ v ∈ (p :: points).map coordinate, v.isNaN = false :=
    List.forall_mem_map.mpr hnumbers
  obtain ⟨hmem, hle⟩ := h.foldl_extreme hvalues
  rw [List.map_cons, List.foldl_cons, hworst]
  exact ⟨List.mem_map.mp hmem, List.forall_mem_map.mp hle⟩

end Prefers

namespace Drawing

/-! ### Infinities -/

lemma rank_infinity : Single.rank infinity = Ranked.rank (.infinity .positive) := by
  decide +kernel

lemma rank_neg_infinity : Single.rank (-infinity) = Ranked.rank (.infinity .negative) := by
  decide +kernel

lemma lesser_infinity (v : Float32) : Point.lesser infinity v = v := by
  refine if_neg fun h => ?_
  have hlt := (Single.lt_iff_rank.mp h).2
  rw [rank_infinity] at hlt
  exact hlt.not_ge (Ranked.rank_le_infinity _)

lemma greater_neg_infinity (v : Float32) : Point.greater (-infinity) v = v := by
  refine if_neg fun h => ?_
  have hlt := (Single.lt_iff_rank.mp h).2
  rw [rank_neg_infinity] at hlt
  exact hlt.not_ge (Ranked.rank_infinity_le _)

/-! ## Corners -/

lemma foldl_lower (points : List Point) (p : Point) :
    points.foldl Point.lower p =
      ⟨(points.map Point.x).foldl Point.lesser p.x,
        (points.map Point.y).foldl Point.lesser p.y⟩ := by
  induction points generalizing p with
  | nil => rfl
  | cons q points ih => exact ih (Point.lower p q)

lemma foldl_upper (points : List Point) (p : Point) :
    points.foldl Point.upper p =
      ⟨(points.map Point.x).foldl Point.greater p.x,
        (points.map Point.y).foldl Point.greater p.y⟩ := by
  induction points generalizing p with
  | nil => rfl
  | cons q points ih => exact ih (Point.upper p q)

/-- The lower corner touches points on both axes and lies below all of them. -/
lemma foldl_lower_extreme {points : List Point} (hnumbers : ∀ p ∈ points, p.IsNumber)
    (hne : points ≠ []) :
    let corner := points.foldl Point.lower (.diagonal infinity)
    (∃ p ∈ points, p.x = corner.x) ∧ (∃ p ∈ points, p.y = corner.y) ∧
      ∀ p ∈ points, corner.x ≤ p.x ∧ corner.y ≤ p.y := by
  obtain ⟨hx, hlex⟩ := prefers_lesser.foldl_map_extreme Point.x lesser_infinity
    (fun p hp => (hnumbers p hp).x) hne
  obtain ⟨hy, hley⟩ := prefers_lesser.foldl_map_extreme Point.y lesser_infinity
    (fun p hp => (hnumbers p hp).y) hne
  rw [foldl_lower]
  exact ⟨hx, hy, fun p hp => ⟨hlex p hp, hley p hp⟩⟩

/-- The upper corner touches points on both axes and lies above all of them. -/
lemma foldl_upper_extreme {points : List Point} (hnumbers : ∀ p ∈ points, p.IsNumber)
    (hne : points ≠ []) :
    let corner := points.foldl Point.upper (.diagonal (-infinity))
    (∃ p ∈ points, p.x = corner.x) ∧ (∃ p ∈ points, p.y = corner.y) ∧
      ∀ p ∈ points, p.x ≤ corner.x ∧ p.y ≤ corner.y := by
  obtain ⟨hx, hlex⟩ := prefers_greater.foldl_map_extreme Point.x greater_neg_infinity
    (fun p hp => (hnumbers p hp).x) hne
  obtain ⟨hy, hley⟩ := prefers_greater.foldl_map_extreme Point.y greater_neg_infinity
    (fun p hp => (hnumbers p hp).y) hne
  rw [foldl_upper]
  exact ⟨hx, hy, fun p hp => ⟨hlex p hp, hley p hp⟩⟩

end Drawing

/-! ## What pulls the corners -/

namespace Mark

variable {m : Mark} {p : Point}

lemma lowPoints_subset (m : Mark) : m.lowPoints ⊆ m.coveredPoints := by
  cases m with
  | circle center radius => exact List.cons_subset_cons _ (List.nil_subset _)
  | _ => exact List.Subset.refl _

lemma highPoints_subset (m : Mark) : m.highPoints ⊆ m.coveredPoints := by
  cases m with
  | circle center radius => exact List.subset_cons_self _ _
  | _ => exact List.Subset.refl _

/-- Each covered point has a point below it that pulls the lower corner, and a point above it that
pulls the upper corner. -/
lemma exists_between (hnumbers : ∀ p ∈ m.coveredPoints, p.IsNumber) (h : p ∈ m.coveredPoints) :
    (∃ q ∈ m.lowPoints, q.x ≤ p.x ∧ q.y ≤ p.y) ∧ ∃ q ∈ m.highPoints, p.x ≤ q.x ∧ p.y ≤ q.y := by
  have hp := hnumbers p h
  have hself : p.x ≤ p.x ∧ p.y ≤ p.y := ⟨Single.le_refl hp.x, Single.le_refl hp.y⟩
  cases m with
  | circle center radius =>
    obtain ⟨hlow, hhigh⟩ := List.forall_mem_cons.mp hnumbers
    have hhigh := hhigh _ List.mem_cons_self
    have hle : (center - Point.diagonal radius.abs).x ≤ (center + Point.diagonal radius.abs).x ∧
        (center - Point.diagonal radius.abs).y ≤ (center + Point.diagonal radius.abs).y :=
      ⟨Single.sub_abs_le_add_abs hlow.x hhigh.x, Single.sub_abs_le_add_abs hlow.y hhigh.y⟩
    rcases List.mem_cons.mp h with rfl | h
    · exact ⟨⟨_, List.mem_cons_self, hself⟩, _, List.mem_cons_self, hle⟩
    · cases List.mem_singleton.mp h
      exact ⟨⟨_, List.mem_cons_self, hle⟩, _, List.mem_cons_self, hself⟩
  | _ => exact ⟨⟨p, h, hself⟩, p, h, hself⟩

end Mark

namespace Drawing

variable {d : Drawing} {marks : List (Array Mark)} {p : Point}

lemma mem_lowPoints_iff : p ∈ d.lowPoints marks ↔
    p ∈ endpoints d.segments.toList ∨ ∃ group ∈ marks, ∃ m ∈ group, p ∈ m.lowPoints := by
  simp [lowPoints]

lemma mem_highPoints_iff : p ∈ d.highPoints marks ↔
    p ∈ endpoints d.segments.toList ∨ ∃ group ∈ marks, ∃ m ∈ group, p ∈ m.highPoints := by
  simp [highPoints]

lemma mem_coveredPoints_iff (h : marks.Perm d.marks.values) : p ∈ d.coveredPoints ↔
    p ∈ endpoints d.segments.toList ∨ ∃ group ∈ marks, ∃ m ∈ group, p ∈ m.coveredPoints := by
  simp [coveredPoints, h.mem_iff]

lemma lowPoints_subset (horder : marks.Perm d.marks.values) :
    d.lowPoints marks ⊆ d.coveredPoints := by
  intro p h
  refine (mem_coveredPoints_iff horder).mpr ((mem_lowPoints_iff.mp h).imp_right ?_)
  rintro ⟨group, hgroup, m, hm, hp⟩
  exact ⟨group, hgroup, m, hm, m.lowPoints_subset hp⟩

lemma highPoints_subset (horder : marks.Perm d.marks.values) :
    d.highPoints marks ⊆ d.coveredPoints := by
  intro p h
  refine (mem_coveredPoints_iff horder).mpr ((mem_highPoints_iff.mp h).imp_right ?_)
  rintro ⟨group, hgroup, m, hm, hp⟩
  exact ⟨group, hgroup, m, hm, m.highPoints_subset hp⟩

lemma exists_between (horder : marks.Perm d.marks.values)
    (hnumbers : ∀ p ∈ d.coveredPoints, p.IsNumber) (h : p ∈ d.coveredPoints) :
    (∃ q ∈ d.lowPoints marks, q.x ≤ p.x ∧ q.y ≤ p.y) ∧
      ∃ q ∈ d.highPoints marks, p.x ≤ q.x ∧ p.y ≤ q.y := by
  rcases (mem_coveredPoints_iff horder).mp h with hend | ⟨group, hgroup, m, hm, hmark⟩
  · have hp := hnumbers p h
    have hself : p.x ≤ p.x ∧ p.y ≤ p.y := ⟨Single.le_refl hp.x, Single.le_refl hp.y⟩
    exact ⟨⟨p, mem_lowPoints_iff.mpr (.inl hend), hself⟩,
      p, mem_highPoints_iff.mpr (.inl hend), hself⟩
  · have hmarks : ∀ q ∈ m.coveredPoints, q.IsNumber := fun q hq =>
      hnumbers q ((mem_coveredPoints_iff horder).mpr (.inr ⟨group, hgroup, m, hm, hq⟩))
    obtain ⟨⟨q, hq, hle⟩, r, hr, hge⟩ := Mark.exists_between hmarks hmark
    exact ⟨⟨q, mem_lowPoints_iff.mpr (.inr ⟨group, hgroup, m, hm, hq⟩), hle⟩,
      r, mem_highPoints_iff.mpr (.inr ⟨group, hgroup, m, hm, hr⟩), hge⟩

/-! ## Bounds -/

/-- Nothing pulls the corners if nothing is covered, and then they are on the wrong sides. -/
lemma boundsIn_eq_none (horder : marks.Perm d.marks.values) (hempty : d.coveredPoints = []) :
    d.boundsIn marks = none := by
  have hlow := lowPoints_subset horder
  have hhigh := highPoints_subset horder
  rw [hempty] at hlow hhigh
  rw [boundsIn, corners, List.subset_nil.mp hlow, List.subset_nil.mp hhigh]
  decide +kernel

/-- What pulls the corners makes a tight box, if there is anything to cover. -/
lemma tightAround_corners (horder : marks.Perm d.marks.values)
    (hnumbers : ∀ p ∈ d.coveredPoints, p.IsNumber) (hne : d.coveredPoints ≠ []) :
    (d.corners marks).TightAround d.coveredPoints := by
  have hlow := lowPoints_subset horder
  have hhigh := highPoints_subset horder
  obtain ⟨p, hp⟩ := List.exists_mem_of_ne_nil _ hne
  obtain ⟨⟨q, hq, -⟩, r, hr, -⟩ := exists_between horder hnumbers hp
  obtain ⟨⟨a, ha, hleft⟩, ⟨b, hb, hbottom⟩, hlower⟩ :=
    foldl_lower_extreme (fun p hp => hnumbers p (hlow hp)) (List.ne_nil_of_mem hq)
  obtain ⟨⟨a', ha', hright⟩, ⟨b', hb', htop⟩, hupper⟩ :=
    foldl_upper_extreme (fun p hp => hnumbers p (hhigh hp)) (List.ne_nil_of_mem hr)
  refine ⟨?_, ?_, ⟨a, hlow ha, hleft⟩, ⟨b, hlow hb, hbottom⟩, ⟨a', hhigh ha', hright⟩,
    b', hhigh hb', htop⟩
  · intro p hp
    obtain ⟨⟨q, hq, hx, hy⟩, -⟩ := exists_between horder hnumbers hp
    exact ⟨Single.le_trans (hlower q hq).1 hx, Single.le_trans (hlower q hq).2 hy⟩
  · intro p hp
    obtain ⟨-, q, hq, hx, hy⟩ := exists_between horder hnumbers hp
    exact ⟨Single.le_trans hx (hupper q hq).1, Single.le_trans hy (hupper q hq).2⟩

/-- **Bounds are tight.**  If no covered point has a coordinate that is NaN, then a drawing has no
bounds exactly if it covers no point, and else its bounds are a box that covers all these points,
infinities like any other number, and each of whose four numbers is a coordinate of one of them.
This does not depend on the order in which the lists of marks are visited; `bounds` visits them in
the order of their names. -/
theorem boundsIn_tight (horder : marks.Perm d.marks.values)
    (hnumbers : ∀ p ∈ d.coveredPoints, p.IsNumber) :
    (d.boundsIn marks = none ↔ d.coveredPoints = []) ∧
      ∀ box, d.boundsIn marks = some box → box.TightAround d.coveredPoints := by
  by_cases hempty : d.coveredPoints = []
  · have hnone := boundsIn_eq_none horder hempty
    refine ⟨iff_of_true hnone hempty, fun box hbox => ?_⟩
    rw [hnone] at hbox
    cases hbox
  · have htight := tightAround_corners horder hnumbers hempty
    obtain ⟨p, hp⟩ := List.exists_mem_of_ne_nil _ hempty
    -- That the sides are in order is asked of the first axis only, and a covered point shows it.
    have hsome : d.boundsIn marks = some (d.corners marks) :=
      if_pos (Single.le_trans (htight.lower_le p hp).1 (htight.le_upper p hp).1)
    refine ⟨iff_of_false ?_ hempty, fun box hbox => ?_⟩
    · rw [hsome]
      exact Option.some_ne_none _
    · rw [hsome] at hbox
      cases hbox
      exact htight

/-- A circle of negative radius is covered like one of positive radius, a segment may go down to
infinity, and a polyline without points covers nothing. -/
theorem boundsIn_tight_of_a_negative_radius :
    let d := ((start {}).addSegment ⟨0.0, 1.0⟩ ⟨2.0, -infinity⟩).addMarks "leaf"
      [.circle ⟨1.0, 2.0⟩ (-3.0), .polyline []]
    let blank := (start {}).addMarks "leaf" [.polyline []]
    let box : Box := ⟨⟨-2.0, -infinity⟩, ⟨4.0, 5.0⟩⟩
    d.bounds = some box ∧ box.TightAround d.coveredPoints ∧ blank.bounds = none := by
  intro d blank box
  have hbounds : d.bounds = some box := by decide +kernel
  have hnumbers : ∀ p ∈ d.coveredPoints, p.IsNumber := by decide +kernel
  have hnothing : blank.coveredPoints = [] := by decide +kernel
  have hblank : ∀ p ∈ blank.coveredPoints, p.IsNumber := by
    rw [hnothing]
    exact nofun
  exact ⟨hbounds, (boundsIn_tight (.refl _) hnumbers).2 box hbounds,
    (boundsIn_tight (.refl _) hblank).1.mpr hnothing⟩

end Drawing

end LSystem
