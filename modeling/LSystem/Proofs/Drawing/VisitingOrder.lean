import Mathlib
import LSystem.Proofs.Drawing.Bounds

/-!
# The order in which marks are visited

The bounds of a drawing are folds over its marks, list by list, and the order of the lists is not a
part of the drawing.  As long as only numbers pull the corners, any order leads to the same box.
But a coordinate that is not a number takes the place of what was accumulated and gives way to
whatever comes next, so what was visited before it does not count, and the order shows.

Each of the four sides is accumulated on its own, and depends on a number only by its rank.  So the
order is studied for folds over ranks, where nothing stands for what is not a number (`overtake`).
A side does not depend on the order exactly if no list holds a coordinate that is not a number, or
if there is a number that no list moves (`Side.steady_iff`): a list with such a coordinate leads to
the same number wherever it is visited, and a list that is visited right after it has to leave that
number where it is.
-/

namespace LSystem

/-! ## Folds over ranks -/

section Overtake

variable {ι R : Type*} {best : R → R → R}

/-- Keeps the better of two ranks.  What is not a number has none; it takes the place of any rank,
and any rank takes its place. -/
def overtake (best : R → R → R) : Option R → Option R → Option R
  | some a, some b => some (best a b)
  | _, b => b

@[simp] lemma overtake_none (a : Option R) : overtake best a none = none := by
  cases a <;> rfl

@[simp] lemma none_overtake (b : Option R) : overtake best none b = b := by
  cases b <;> rfl

lemma overtake_right_comm [Std.Commutative best] [Std.Associative best] {x y : Option R}
    (hx : x ≠ none) (hy : y ≠ none) (z : Option R) :
    overtake best (overtake best z x) y = overtake best (overtake best z y) x := by
  obtain ⟨b, rfl⟩ := Option.ne_none_iff_exists'.mp hx
  obtain ⟨c, rfl⟩ := Option.ne_none_iff_exists'.mp hy
  cases z with
  | none => exact congrArg some (Std.Commutative.comm b c)
  | some a => exact congrArg some (RightCommutative.right_comm a b c)

/-- What is not a number makes a fold forget where it started. -/
lemma foldl_overtake_of_none_mem (best : R → R → R) {ranks : List (Option R)}
    (h : none ∈ ranks) (a b : Option R) :
    ranks.foldl (overtake best) a = ranks.foldl (overtake best) b := by
  obtain ⟨before, after, rfl⟩ := List.append_of_mem h
  simp only [List.foldl_append, List.foldl_cons, overtake_none]

variable {ranks : ι → List (Option R)} {groups order order' : List ι} {a c : Option R}

/-- Only numbers may be visited in any order. -/
lemma foldl_flatMap_of_numbers [Std.Commutative best] [Std.Associative best]
    (h : order.Perm order') (hnumbers : ∀ g ∈ order, none ∉ ranks g) :
    (order.flatMap ranks).foldl (overtake best) a =
      (order'.flatMap ranks).foldl (overtake best) a := by
  have hne {x : Option R} (hx : x ∈ order.flatMap ranks) : x ≠ none := by
    obtain ⟨g, hg, hx⟩ := List.mem_flatMap.mp hx
    exact ne_of_mem_of_not_mem hx (hnumbers g hg)
  exact (h.flatMap_right ranks).foldl_eq'
    (fun x hx y hy z => overtake_right_comm (hne hx) (hne hy) z) a

/-- If no list moves a rank, then a fold ends there once it got there, and it gets there with the
first list that holds what is not a number. -/
lemma foldl_flatMap_of_fixed (hfixed : ∀ g ∈ order, (ranks g).foldl (overtake best) c = c)
    (h : a = c ∨ ∃ g ∈ order, none ∈ ranks g) :
    (order.flatMap ranks).foldl (overtake best) a = c := by
  induction order generalizing a with
  | nil =>
    obtain h | ⟨g, hg, -⟩ := h
    · exact h
    · cases hg
  | cons g order ih =>
    obtain ⟨hg, horder⟩ := List.forall_mem_cons.mp hfixed
    rw [List.flatMap_cons, List.foldl_append]
    refine ih horder ?_
    obtain rfl | ⟨g', hg', hnone⟩ := h
    · exact .inl hg
    · obtain rfl | hg' := List.mem_cons.mp hg'
      · exact .inl ((foldl_overtake_of_none_mem best hnone a c).trans hg)
      · exact .inr ⟨g', hg', hnone⟩

/-- If the order does not matter, then no list moves what a list leads to that holds what is not a
number. -/
lemma foldl_eq_of_forall_perm {g g' : ι}
    (h : ∀ order order' : List ι, order.Perm groups → order'.Perm groups →
      (order.flatMap ranks).foldl (overtake best) a =
        (order'.flatMap ranks).foldl (overtake best) a)
    (hg : g ∈ groups) (hnone : none ∈ ranks g) (hg' : g' ∈ groups) :
    (ranks g').foldl (overtake best) ((ranks g).foldl (overtake best) a) =
      (ranks g).foldl (overtake best) a := by
  have hforget (b : Option R) := foldl_overtake_of_none_mem best hnone b a
  obtain ⟨before, after, rfl⟩ := List.append_of_mem hg
  obtain rfl | hg' := List.mem_cons.mp (List.perm_middle.mem_iff.mp hg')
  · exact hforget _
  -- The list is visited at the end, and then right before the end.
  · obtain ⟨before', after', hrest⟩ := List.append_of_mem hg'
    have hperm : (g' :: g :: (before' ++ after')).Perm (before ++ g :: after) := by
      have hmiddle : (before ++ g :: after).Perm (g :: (before ++ after)) := List.perm_middle
      rw [hrest] at hmiddle
      exact (List.Perm.swap ..).trans ((List.perm_middle.symm.cons g).trans hmiddle.symm)
    have hlast : (before' ++ after' ++ [g', g]).Perm (before ++ g :: after) :=
      List.perm_append_comm.trans hperm
    have hsecond : (before' ++ after' ++ [g, g']).Perm (before ++ g :: after) :=
      List.perm_append_comm.trans ((List.Perm.swap ..).trans hperm)
    have heq := h _ _ hsecond hlast
    simpa only [List.flatMap_append, List.foldl_append, List.flatMap_cons, List.flatMap_nil,
      List.append_nil, hforget] using heq

end Overtake

/-! ## Numbers up to agreement -/

namespace Single

/-- The rank of a number; what is not a number has none. -/
def rank? (a : Float32) : Option (ℤ ×ₗ ℤ ×ₗ ℤ) := if a.isNaN then none else some (rank a)

lemma rank?_of_isNaN {a : Float32} (h : a.isNaN = true) : rank? a = none := if_pos h

lemma rank?_of_number {a : Float32} (h : a.isNaN = false) : rank? a = some (rank a) :=
  if_neg (Bool.eq_false_iff.mp h)

lemma rank?_ne_none_iff {a : Float32} : rank? a ≠ none ↔ a.isNaN = false := by
  cases h : a.isNaN with
  | true => simp [rank?_of_isNaN h]
  | false => simp [rank?_of_number h]

lemma le_iff_rank? {a b : Float32} :
    a ≤ b ↔ ∃ r ∈ rank? a, ∃ s ∈ rank? b, r ≤ s := by
  rw [le_iff_rank]
  cases ha : a.isNaN <;> cases hb : b.isNaN <;>
    simp only [rank?_of_isNaN, rank?_of_number, ha, hb] <;> simp

/-- A choice in which only a number is kept, and the better of two numbers, is one between ranks. -/
lemma rank?_ite {a b : Float32} {p : Prop} [Decidable p]
    {best : (ℤ ×ₗ ℤ ×ₗ ℤ) → (ℤ ×ₗ ℤ ×ₗ ℤ) → ℤ ×ₗ ℤ ×ₗ ℤ}
    (hnumbers : p → a.isNaN = false ∧ b.isNaN = false)
    (hleft : p → best (rank a) (rank b) = rank a)
    (hright : a.isNaN = false → b.isNaN = false → ¬ p → best (rank a) (rank b) = rank b) :
    rank? (if p then a else b) = overtake best (rank? a) (rank? b) := by
  by_cases hp : p
  · obtain ⟨ha, hb⟩ := hnumbers hp
    rw [if_pos hp, rank?_of_number ha, rank?_of_number hb, overtake, hleft hp]
  · rw [if_neg hp]
    cases ha : a.isNaN with
    | true => rw [rank?_of_isNaN ha, none_overtake]
    | false =>
      cases hb : b.isNaN with
      | true => rw [rank?_of_isNaN hb, overtake_none]
      | false => rw [rank?_of_number ha, rank?_of_number hb, overtake, hright ha hb hp]

lemma rank?_lesser (a b : Float32) :
    rank? (Point.lesser a b) = overtake min (rank? a) (rank? b) := by
  refine rank?_ite (fun h => (lt_iff_rank.mp h).1) (fun h => min_eq_left (lt_iff_rank.mp h).2.le) ?_
  intro ha hb h
  exact min_eq_right (not_lt.mp fun hlt => h (lt_iff_rank.mpr ⟨⟨ha, hb⟩, hlt⟩))

lemma rank?_greater (a b : Float32) :
    rank? (Point.greater a b) = overtake max (rank? a) (rank? b) := by
  refine rank?_ite (fun h => (lt_iff_rank.mp h).1.symm)
    (fun h => max_eq_left (lt_iff_rank.mp h).2.le) ?_
  intro ha hb h
  exact max_eq_right (not_lt.mp fun hlt => h (lt_iff_rank.mpr ⟨⟨hb, ha⟩, hlt⟩))

end Single

/-- Numerically equal, or both not a number. -/
def Agrees (a b : Float32) : Prop := (a == b) = true ∨ a.isNaN = true ∧ b.isNaN = true

instance (a b : Float32) : Decidable (Agrees a b) := inferInstanceAs (Decidable (_ ∨ _))

lemma agrees_iff {a b : Float32} : Agrees a b ↔ Single.rank? a = Single.rank? b := by
  rw [Agrees, Single.beq_iff_rank]
  cases ha : a.isNaN <;> cases hb : b.isNaN <;>
    simp only [Single.rank?_of_isNaN, Single.rank?_of_number, ha, hb] <;> simp

namespace Box

/-- The sides agree, one by one. -/
structure Agrees (a b : Box) : Prop where
  left : LSystem.Agrees a.lower.x b.lower.x
  bottom : LSystem.Agrees a.lower.y b.lower.y
  right : LSystem.Agrees a.upper.x b.upper.x
  top : LSystem.Agrees a.upper.y b.upper.y

end Box

/-! ## Sides -/

/-- A side of a box. -/
inductive Side where
  | left
  | bottom
  | right
  | top
deriving DecidableEq, Repr

namespace Side

variable {d : Drawing}

/-- Where a box has the side. -/
def ofBox (box : Box) : Side → Float32
  | left => box.lower.x
  | bottom => box.lower.y
  | right => box.upper.x
  | top => box.upper.y

/-- The coordinate of a point that pulls the side. -/
def coordinate : Side → Point → Float32
  | left | right => Point.x
  | bottom | top => Point.y

/-- The coordinate that the side keeps. -/
def keep : Side → Float32 → Float32 → Float32
  | left | bottom => Point.lesser
  | right | top => Point.greater

/-- The points to which a mark pulls the side. -/
def points : Side → Mark → List Point
  | left | bottom => Mark.lowPoints
  | right | top => Mark.highPoints

/-- Where the side is before anything pulls it. -/
def origin : Side → Float32
  | left | bottom => Drawing.infinity
  | right | top => -Drawing.infinity

/-- The better of two ranks. -/
def best : Side → (ℤ ×ₗ ℤ ×ₗ ℤ) → (ℤ ×ₗ ℤ ×ₗ ℤ) → ℤ ×ₗ ℤ ×ₗ ℤ
  | left | bottom => min
  | right | top => max

/-- Where the segments pull the side. -/
def ofSegments (side : Side) (segments : List Segment) : Float32 :=
  ((Drawing.endpoints segments).map side.coordinate).foldl side.keep side.origin

/-- The coordinates to which a list of marks pulls the side. -/
def values (side : Side) (group : Array Mark) : List Float32 :=
  (group.toList.flatMap side.points).map side.coordinate

/-- Only numbers pull the side, or there is a place from which no list of marks moves it. -/
def Steady (side : Side) (groups : List (Array Mark)) : Prop :=
  (∀ g ∈ groups, ∀ a ∈ side.values g, a.isNaN = false) ∨
    ∃ a, ∀ g ∈ groups, Agrees ((side.values g).foldl side.keep a) a

instance (side : Side) : Std.Commutative side.best := by
  cases side <;> first | exact ⟨min_comm⟩ | exact ⟨max_comm⟩

instance (side : Side) : Std.Associative side.best := by
  cases side <;> first | exact ⟨min_assoc⟩ | exact ⟨max_assoc⟩

lemma rank?_keep (side : Side) (a b : Float32) :
    Single.rank? (side.keep a b) = overtake side.best (Single.rank? a) (Single.rank? b) := by
  cases side <;> first | exact Single.rank?_lesser a b | exact Single.rank?_greater a b

/-- The ranks to which a list of marks pulls the side. -/
def ranks (side : Side) (group : Array Mark) : List (Option (ℤ ×ₗ ℤ ×ₗ ℤ)) :=
  (side.values group).map Single.rank?

lemma rank?_foldl (side : Side) (values : List Float32) (a : Float32) :
    Single.rank? (values.foldl side.keep a) =
      (values.map Single.rank?).foldl (overtake side.best) (Single.rank? a) := by
  rw [List.foldl_map]
  exact (List.foldl_hom Single.rank? fun a b => (side.rank?_keep a b).symm).symm

/-- The marks pull the side from where the segments pull it. -/
lemma ofBox_corners (side : Side) (order : List (Array Mark)) :
    side.ofBox (d.corners order) =
      (order.flatMap side.values).foldl side.keep (side.ofSegments d.segments.toList) := by
  have hvalues : order.flatMap side.values =
      (order.flatMap fun g => g.toList.flatMap side.points).map side.coordinate :=
    List.map_flatMap.symm
  rw [hvalues, ofSegments, ← List.foldl_append, ← List.map_append, Drawing.corners,
    Drawing.foldl_lower, Drawing.foldl_upper]
  cases side <;> rfl

lemma rank?_ofBox_corners (side : Side) (order : List (Array Mark)) :
    Single.rank? (side.ofBox (d.corners order)) =
      (order.flatMap side.ranks).foldl (overtake side.best)
        (Single.rank? (side.ofSegments d.segments.toList)) := by
  rw [ofBox_corners, rank?_foldl, List.map_flatMap]
  rfl

lemma none_notMem_ranks_iff {side : Side} {group : Array Mark} :
    none ∉ side.ranks group ↔ ∀ a ∈ side.values group, a.isNaN = false := by
  simp only [ranks, List.mem_map, not_exists, not_and, ← Single.rank?_ne_none_iff, ne_eq]

lemma steady_iff_ranks {side : Side} {groups : List (Array Mark)} :
    side.Steady groups ↔ (∀ g ∈ groups, none ∉ side.ranks g) ∨
      ∃ a, ∀ g ∈ groups,
        (side.ranks g).foldl (overtake side.best) (Single.rank? a) = Single.rank? a := by
  simp only [none_notMem_ranks_iff]
  simp only [Steady, agrees_iff, rank?_foldl, ranks]

/-- A side does not depend on the order exactly if it is steady. -/
lemma steady_iff {side : Side} : side.Steady d.marks.values ↔
    ∀ order order' : List (Array Mark),
      order.Perm d.marks.values → order'.Perm d.marks.values →
        Agrees (side.ofBox (d.corners order)) (side.ofBox (d.corners order')) := by
  simp only [agrees_iff, rank?_ofBox_corners]
  rw [steady_iff_ranks]
  constructor
  · intro h order order' horder horder'
    by_cases hnumbers : ∀ g ∈ d.marks.values, none ∉ side.ranks g
    · exact foldl_flatMap_of_numbers (horder.trans horder'.symm)
        fun g hg => hnumbers g (horder.mem_iff.mp hg)
    · obtain ⟨a, hfixed⟩ := h.resolve_left hnumbers
      push Not at hnumbers
      obtain ⟨g, hg, hnone⟩ := hnumbers
      have hrank {order : List (Array Mark)} (horder : order.Perm d.marks.values) :=
        foldl_flatMap_of_fixed (a := Single.rank? (side.ofSegments d.segments.toList))
          (fun g hg => hfixed g (horder.mem_iff.mp hg)) (.inr ⟨g, horder.mem_iff.mpr hg, hnone⟩)
      rw [hrank horder, hrank horder']
  · intro h
    by_cases hnumbers : ∀ g ∈ d.marks.values, none ∉ side.ranks g
    · exact .inl hnumbers
    · push Not at hnumbers
      obtain ⟨g, hg, hnone⟩ := hnumbers
      refine .inr ⟨(side.values g).foldl side.keep (side.ofSegments d.segments.toList), ?_⟩
      intro g' hg'
      have hfixed := foldl_eq_of_forall_perm h hg hnone hg'
      rw [rank?_foldl]
      exact hfixed

/-- The coordinates that pull a side are those of points that marks cover. -/
lemma steady_of_numbers {groups : List (Array Mark)}
    (h : ∀ group ∈ groups, ∀ m ∈ group, ∀ p ∈ m.coveredPoints, p.IsNumber) (side : Side) :
    side.Steady groups := by
  refine .inl fun group hgroup a ha => ?_
  obtain ⟨p, hp, rfl⟩ := List.mem_map.mp ha
  obtain ⟨m, hm, hp⟩ := List.mem_flatMap.mp hp
  have hnumbers := h group hgroup m (Array.mem_toList_iff.mp hm)
  cases side with
  | left => exact (hnumbers p (m.lowPoints_subset hp)).x
  | bottom => exact (hnumbers p (m.lowPoints_subset hp)).y
  | right => exact (hnumbers p (m.highPoints_subset hp)).x
  | top => exact (hnumbers p (m.highPoints_subset hp)).y

end Side

namespace Box

lemma agrees_iff_side {a b : Box} :
    a.Agrees b ↔ ∀ side : Side, LSystem.Agrees (side.ofBox a) (side.ofBox b) := by
  refine ⟨fun h side => ?_, fun h => ⟨h .left, h .bottom, h .right, h .top⟩⟩
  cases side with
  | left => exact h.left
  | bottom => exact h.bottom
  | right => exact h.right
  | top => exact h.top

end Box

namespace Drawing

variable {d : Drawing} {order order' : List (Array Mark)}

/-! ## Bounds in two orders -/

/-- Both are absent, or the sides agree. -/
abbrev SameBounds : Option Box → Option Box → Prop := Option.Rel Box.Agrees

lemma sameBounds_of_agrees (h : (d.corners order).Agrees (d.corners order')) :
    SameBounds (d.boundsIn order) (d.boundsIn order') := by
  have hle : (d.corners order).lower.x ≤ (d.corners order).upper.x ↔
      (d.corners order').lower.x ≤ (d.corners order').upper.x := by
    rw [Single.le_iff_rank?, Single.le_iff_rank?, agrees_iff.mp h.left, agrees_iff.mp h.right]
  by_cases hbox : (d.corners order).lower.x ≤ (d.corners order).upper.x
  · rw [boundsIn, boundsIn, if_pos hbox, if_pos (hle.mp hbox)]
    exact .some h
  · rw [boundsIn, boundsIn, if_neg hbox, if_neg (mt hle.mpr hbox)]
    exact .none

lemma boundsIn_eq_none_or (d : Drawing) (order : List (Array Mark)) :
    d.boundsIn order = none ∨ d.boundsIn order = some (d.corners order) :=
  (ite_eq_or_eq _ _ _).symm

lemma agrees_of_sameBounds (h : SameBounds (d.boundsIn order) (d.boundsIn order'))
    (hsome : d.boundsIn order ≠ none) : (d.corners order).Agrees (d.corners order') := by
  have hbox := (boundsIn_eq_none_or d order).resolve_left hsome
  rw [hbox] at h
  obtain hnone | hbox' := boundsIn_eq_none_or d order'
  · rw [hnone] at h
    cases h
  · rw [hbox'] at h
    cases h with
    | some h => exact h

lemma sameBounds_of_steady (h : ∀ side : Side, side.Steady d.marks.values)
    (horder : order.Perm d.marks.values) (horder' : order'.Perm d.marks.values) :
    SameBounds (d.boundsIn order) (d.boundsIn order') :=
  sameBounds_of_agrees (Box.agrees_iff_side.mpr fun side =>
    Side.steady_iff.mp (h side) order order' horder horder')

/-- If any two orders lead to the same bounds, and one of them to a box, then the order does not
matter to any of its sides. -/
lemma steady_of_sameBounds {first : List (Array Mark)}
    (h : ∀ order order' : List (Array Mark), order.Perm d.marks.values →
      order'.Perm d.marks.values → SameBounds (d.boundsIn order) (d.boundsIn order'))
    (hfirst : first.Perm d.marks.values) (hsome : d.boundsIn first ≠ none) (side : Side) :
    side.Steady d.marks.values := by
  have hagrees {order : List (Array Mark)} (horder : order.Perm d.marks.values) :=
    Box.agrees_iff_side.mp (agrees_of_sameBounds (h first order hfirst horder) hsome)
  refine Side.steady_iff.mpr fun order order' horder horder' => ?_
  have hleft := agrees_iff.mp (hagrees horder side)
  have hright := agrees_iff.mp (hagrees horder' side)
  exact agrees_iff.mpr (hleft.symm.trans hright)

/-- **When the order matters.**  Two orders in which the lists of marks are visited lead to the
same bounds if no mark covers a point with a coordinate that is NaN, whatever the segments are.  In
general, any two orders do so exactly if none of them leads to bounds, or if each of the four sides
is steady: only numbers pull it, or there is a place from which no list of marks moves it. -/
theorem boundsIn_orders (d : Drawing) :
    ((∀ group ∈ d.marks.values, ∀ m ∈ group, ∀ p ∈ m.coveredPoints, p.IsNumber) →
      ∀ order order' : List (Array Mark), order.Perm d.marks.values → order'.Perm d.marks.values →
        SameBounds (d.boundsIn order) (d.boundsIn order')) ∧
    ((∀ order order' : List (Array Mark), order.Perm d.marks.values → order'.Perm d.marks.values →
        SameBounds (d.boundsIn order) (d.boundsIn order')) ↔
      (∀ order : List (Array Mark), order.Perm d.marks.values → d.boundsIn order = none) ∨
        ∀ side : Side, side.Steady d.marks.values) := by
  constructor
  · intro h order order' horder horder'
    exact sameBounds_of_steady (fun side => side.steady_of_numbers h) horder horder'
  constructor
  · intro h
    by_cases hnone : ∀ order : List (Array Mark), order.Perm d.marks.values →
        d.boundsIn order = none
    · exact .inl hnone
    · push Not at hnone
      obtain ⟨first, hfirst, hsome⟩ := hnone
      exact .inr (steady_of_sameBounds h hfirst hsome)
  · rintro (hnone | hsteady) order order' horder horder'
    · rw [hnone order horder, hnone order' horder']
      exact .none
    · exact sameBounds_of_steady hsteady horder horder'

/-- A list that ends where every other leads may hold what is not a number, and so may segments. -/
theorem boundsIn_orders_of_a_fixed_point :
    let bud := #[.point ⟨.nan, .nan⟩, .point ⟨5.0, 5.0⟩]
    let leaf := #[.point ⟨5.0, 5.0⟩]
    let tip := #[.point ⟨2.0, 3.0⟩]
    let d := ((start {}).addMarks "bud" bud.toList).addMarks "leaf" leaf.toList
    let e := (((start {}).addSegment ⟨.nan, 1.0⟩ ⟨0.0, .nan⟩).addMarks "leaf" leaf.toList).addMarks
      "tip" tip.toList
    (∀ side : Side, side.Steady d.marks.values) ∧
      SameBounds (d.boundsIn [bud, leaf]) (d.boundsIn [leaf, bud]) ∧
      (∀ group ∈ e.marks.values, ∀ m ∈ group, ∀ p ∈ m.coveredPoints, p.IsNumber) ∧
      SameBounds (e.boundsIn [leaf, tip]) (e.boundsIn [tip, leaf]) := by
  intro bud leaf tip d e
  have hd : d.marks.values = [bud, leaf] := by decide +kernel
  have he : e.marks.values = [leaf, tip] := by decide +kernel
  have hsteady (side : Side) : side.Steady d.marks.values := by
    refine .inr ⟨5.0, ?_⟩
    rw [hd]
    cases side <;> decide +kernel
  have hnumbers : ∀ group ∈ e.marks.values, ∀ m ∈ group, ∀ p ∈ m.coveredPoints, p.IsNumber := by
    rw [he]
    decide +kernel
  have hbounds := (boundsIn_orders d).2.mpr (.inr hsteady) [bud, leaf] [leaf, bud]
  have hbounds' := (boundsIn_orders e).1 hnumbers [leaf, tip] [tip, leaf]
  rw [hd] at hbounds
  rw [he] at hbounds'
  exact ⟨hsteady, hbounds (.refl _) (.swap ..), hnumbers, hbounds' (.refl _) (.swap ..)⟩

/-- What is not a number makes the fold forget what was visited before, here the only point. -/
theorem boundsIn_depends_on_order :
    let d := ((start {}).addMarks "bud" [.point ⟨.nan, .nan⟩]).addMarks "leaf" [.point ⟨5.0, 5.0⟩]
    let bud := #[.point ⟨.nan, .nan⟩]
    let leaf := #[.point ⟨5.0, 5.0⟩]
    ([bud, leaf].Perm d.marks.values ∧ [leaf, bud].Perm d.marks.values ∧
      d.boundsIn [bud, leaf] = some ⟨⟨5.0, 5.0⟩, ⟨5.0, 5.0⟩⟩ ∧ d.boundsIn [leaf, bud] = none) ∧
    ¬ ∀ (d : Drawing) (order order' : List (Array Mark)),
      order.Perm d.marks.values → order'.Perm d.marks.values →
        SameBounds (d.boundsIn order) (d.boundsIn order') := by
  intro d bud leaf
  have hvalues : d.marks.values = [bud, leaf] := by decide +kernel
  have hleaf : d.boundsIn [bud, leaf] = some ⟨⟨5.0, 5.0⟩, ⟨5.0, 5.0⟩⟩ := by decide +kernel
  have hbud : d.boundsIn [leaf, bud] = none := by decide +kernel
  have hfirst : [bud, leaf].Perm d.marks.values := hvalues ▸ .refl _
  have hsecond : [leaf, bud].Perm d.marks.values := hvalues ▸ .swap ..
  refine ⟨⟨hfirst, hsecond, hleaf, hbud⟩, fun h => ?_⟩
  have hsame := h d _ _ hfirst hsecond
  rw [hleaf, hbud] at hsame
  cases hsame

end Drawing

end LSystem
