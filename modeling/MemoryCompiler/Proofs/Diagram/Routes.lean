import Mathlib
import MemoryCompiler.Diagram.Route
import MemoryCompiler.Proofs.Decimal.Reals

/-!
# Routes and label anchors

A route goes from point to point along the axes. Whatever the points are, it keeps them in their order,
ends where they end and needs no more corners once it has them (`isChain_route`, `sublist_route`,
`route_route`). Putting in corners only compares and copies coordinates, so the route of finite doubles
stands for the route of the real numbers they stand for (`map_exact_route`). In the reals the label of a
line is anchored at the middle of its first longest segment (`exists_labelAnchor`).
-/

namespace MemoryCompiler.Diagram

/-! ### Corners -/

section corners

variable {α : Type} [BEq α] {last p q : Point α} {points rest : List (Point α)}

/-- Both coordinates equal themselves, as those of NaN do not. -/
def Point.Proper (p : Point α) : Prop := (p.x == p.x) = true ∧ (p.y == p.y) = true

/-- The points lie on one line along an axis. -/
def Point.Aligned (p q : Point α) : Prop := (p.x == q.x) = true ∨ (p.y == q.y) = true

theorem apart_iff : (p.x != q.x && p.y != q.y) = true ↔ ¬ p.Aligned q := by
  simp [Point.Aligned, bne]

theorem routeFrom_of_aligned (h : last.Aligned p) :
    routeFrom last (p :: rest) = p :: routeFrom p rest := by
  rw [routeFrom, if_neg (fun hapart => apart_iff.1 hapart h)]

theorem routeFrom_of_not_aligned (h : ¬ last.Aligned p) :
    routeFrom last (p :: rest) = ⟨p.x, last.y⟩ :: p :: routeFrom p rest := by
  rw [routeFrom, if_pos (apart_iff.2 h)]

theorem isChain_routeFrom (hlast : last.Proper) (hpoints : ∀ p ∈ points, p.Proper) :
    (last :: routeFrom last points).IsChain Point.Aligned := by
  induction points generalizing last with
  | nil => exact List.isChain_singleton last
  | cons p rest ih =>
    obtain ⟨hp, hrest⟩ := List.forall_mem_cons.1 hpoints
    have htail := ih hp hrest
    by_cases haligned : last.Aligned p
    · rw [routeFrom_of_aligned haligned]
      exact htail.cons_cons haligned
    · -- The corner shares its row with the point before it and its column with the point behind it.
      rw [routeFrom_of_not_aligned haligned]
      exact (htail.cons_cons (.inl hp.1)).cons_cons (.inr hlast.2)

theorem sublist_routeFrom (last : Point α) (points : List (Point α)) :
    points.Sublist (routeFrom last points) := by
  induction points generalizing last with
  | nil => exact List.Sublist.refl _
  | cons p rest ih =>
    by_cases haligned : last.Aligned p
    · rw [routeFrom_of_aligned haligned]
      exact (ih p).cons_cons p
    · rw [routeFrom_of_not_aligned haligned]
      exact ((ih p).cons_cons p).cons _

theorem getLast?_routeFrom (last : Point α) (points : List (Point α)) :
    (last :: routeFrom last points).getLast? = (last :: points).getLast? := by
  induction points generalizing last with
  | nil => rfl
  | cons p rest ih =>
    by_cases haligned : last.Aligned p
    · rw [routeFrom_of_aligned haligned, List.getLast?_cons_cons, List.getLast?_cons_cons, ih]
    · rw [routeFrom_of_not_aligned haligned, List.getLast?_cons_cons, List.getLast?_cons_cons,
        List.getLast?_cons_cons, ih]

theorem length_routeFrom_le (last : Point α) (points : List (Point α)) :
    (routeFrom last points).length ≤ 2 * points.length := by
  induction points generalizing last with
  | nil => exact Nat.le_refl 0
  | cons p rest ih =>
    have hrest := ih p
    by_cases haligned : last.Aligned p
    · rw [routeFrom_of_aligned haligned]
      simp only [List.length_cons]
      omega
    · rw [routeFrom_of_not_aligned haligned]
      simp only [List.length_cons]
      omega

theorem routeFrom_of_isChain (h : (last :: points).IsChain Point.Aligned) :
    routeFrom last points = points := by
  induction points generalizing last with
  | nil => rfl
  | cons p rest ih =>
    rw [List.isChain_cons_cons] at h
    rw [routeFrom_of_aligned h.1, ih h.2]

theorem isChain_route (h : ∀ p ∈ points, p.Proper) : (route points).IsChain Point.Aligned := by
  cases points with
  | nil => exact List.isChain_nil
  | cons p rest =>
    obtain ⟨hp, hrest⟩ := List.forall_mem_cons.1 h
    exact isChain_routeFrom hp hrest

theorem sublist_route (points : List (Point α)) : points.Sublist (route points) := by
  cases points with
  | nil => exact List.Sublist.refl _
  | cons p rest => exact (sublist_routeFrom p rest).cons_cons p

theorem head?_route (points : List (Point α)) : (route points).head? = points.head? := by
  cases points <;> rfl

theorem getLast?_route (points : List (Point α)) : (route points).getLast? = points.getLast? := by
  cases points with
  | nil => rfl
  | cons p rest => exact getLast?_routeFrom p rest

theorem length_route_le (points : List (Point α)) : (route points).length ≤ 2 * points.length - 1 := by
  cases points with
  | nil => exact Nat.le_refl 0
  | cons p rest =>
    have hrest := length_routeFrom_le p rest
    simp only [route, List.length_cons]
    omega

theorem route_of_isChain (h : points.IsChain Point.Aligned) : route points = points := by
  cases points with
  | nil => rfl
  | cons p rest => rw [route, routeFrom_of_isChain h]

theorem route_route (h : ∀ p ∈ points, p.Proper) : route (route points) = route points :=
  route_of_isChain (isChain_route h)

end corners

/-! ### Doubles as exact coordinates -/

namespace Point

def IsFinite (p : Point Float) : Prop := p.x.isFinite = true ∧ p.y.isFinite = true

noncomputable def exact (p : Point Float) : Point ℝ := ⟨Decimal.toReal p.x, Decimal.toReal p.y⟩

variable {p q : Point Float}

theorem IsFinite.proper (h : p.IsFinite) : p.Proper :=
  ⟨(Decimal.toReal_eq_iff h.1 h.1).1 rfl, (Decimal.toReal_eq_iff h.2 h.2).1 rfl⟩

theorem aligned_exact_iff (hp : p.IsFinite) (hq : q.IsFinite) : p.exact.Aligned q.exact ↔ p.Aligned q := by
  simp only [Aligned, beq_iff_eq]
  exact or_congr (Decimal.toReal_eq_iff hp.1 hq.1) (Decimal.toReal_eq_iff hp.2 hq.2)

end Point

theorem map_exact_routeFrom {last : Point Float} {points : List (Point Float)} (hlast : last.IsFinite)
    (hpoints : ∀ p ∈ points, p.IsFinite) :
    (routeFrom last points).map Point.exact = routeFrom last.exact (points.map Point.exact) := by
  induction points generalizing last with
  | nil => rfl
  | cons p rest ih =>
    obtain ⟨hp, hrest⟩ := List.forall_mem_cons.1 hpoints
    have htail := ih hp hrest
    have halign := Point.aligned_exact_iff hlast hp
    rw [List.map_cons]
    by_cases haligned : last.Aligned p
    · rw [routeFrom_of_aligned haligned, routeFrom_of_aligned (halign.2 haligned), List.map_cons, htail]
    · rw [routeFrom_of_not_aligned haligned, routeFrom_of_not_aligned (mt halign.1 haligned), List.map_cons,
        List.map_cons, htail]
      rfl

theorem map_exact_route {points : List (Point Float)} (h : ∀ p ∈ points, p.IsFinite) :
    (route points).map Point.exact = route (points.map Point.exact) := by
  cases points with
  | nil => rfl
  | cons p rest =>
    obtain ⟨hp, hrest⟩ := List.forall_mem_cons.1 h
    rw [route, List.map_cons, List.map_cons, route, map_exact_routeFrom hp hrest]

/-! ### The longest segment -/

/-- The length of a segment along the axes. -/
def manhattan (s : Point ℝ × Point ℝ) : ℝ := |s.2.x - s.1.x| + |s.2.y - s.1.y|

/-- The first of the items of the greatest length. -/
def IsFirstLongest {σ : Type} (length : σ → ℝ) (s : σ) (items : List σ) : Prop :=
  ∃ before after, items = before ++ s :: after ∧ (∀ t ∈ before, length t < length s) ∧
    ∀ t ∈ after, length t ≤ length s

/-- The point lies on one of the segments of a line. -/
def OnLine (p : Point ℝ) (line : List (Point ℝ)) : Prop :=
  ∃ s ∈ segments line, ∃ t : ℝ, 0 ≤ t ∧ t ≤ 1 ∧
    p = ⟨s.1.x + t * (s.2.x - s.1.x), s.1.y + t * (s.2.y - s.1.y)⟩

theorem distance_eq (a b : ℝ) : distance a b = |b - a| := by
  rw [distance]
  split_ifs with hlt
  · exact (abs_of_pos (sub_pos.2 hlt)).symm
  · rw [abs_sub_comm]
    exact (abs_of_nonneg (sub_nonneg.2 (not_lt.1 hlt))).symm

theorem segmentLength_eq (s : Point ℝ × Point ℝ) : segmentLength s = manhattan s := by
  rw [segmentLength, distance_eq, distance_eq, manhattan]

theorem IsFirstLongest.le {σ : Type} {length : σ → ℝ} {s t : σ} {items : List σ}
    (h : IsFirstLongest length s items) (ht : t ∈ items) : length t ≤ length s := by
  obtain ⟨before, after, rfl, hbefore, hafter⟩ := h
  rcases List.mem_append.1 ht with ht | ht
  · exact (hbefore t ht).le
  · rcases List.mem_cons.1 ht with rfl | ht
    · exact le_refl _
    · exact hafter t ht

/-- A segment that is not longer than the best one before it never wins. -/
theorem IsFirstLongest.insert_second {σ : Type} {length : σ → ℝ} {r best s : σ} {rest : List σ}
    (h : IsFirstLongest length r (best :: rest)) (hle : length s ≤ length best) :
    IsFirstLongest length r (best :: s :: rest) := by
  have hbest := h.le List.mem_cons_self
  obtain ⟨before, after, hitems, hbefore, hafter⟩ := h
  cases before with
  | nil =>
    obtain ⟨rfl, rfl⟩ := List.cons.inj hitems
    exact ⟨[], s :: rest, rfl, nofun, List.forall_mem_cons.2 ⟨hle, hafter⟩⟩
  | cons b before =>
    obtain ⟨rfl, rfl⟩ := List.cons.inj hitems
    obtain ⟨hlt, hbefore⟩ := List.forall_mem_cons.1 hbefore
    exact ⟨best :: s :: before, after, rfl,
      List.forall_mem_cons.2 ⟨hlt, List.forall_mem_cons.2 ⟨hle.trans_lt hlt, hbefore⟩⟩, hafter⟩

theorem isFirstLongest_longestFrom (best : Point ℝ × Point ℝ) (rest : List (Point ℝ × Point ℝ)) :
    IsFirstLongest manhattan (longestFrom best (some (manhattan best)) rest) (best :: rest) := by
  induction rest generalizing best with
  | nil => exact ⟨[], [], rfl, nofun, nofun⟩
  | cons s rest ih =>
    rw [longestFrom, segmentLength_eq]
    by_cases hlonger : manhattan best < manhattan s
    · rw [if_pos (decide_eq_true hlonger)]
      have hrest := ih s
      have hlt := hlonger.trans_le (hrest.le List.mem_cons_self)
      obtain ⟨before, after, hitems, hbefore, hafter⟩ := hrest
      exact ⟨best :: before, after, congrArg (best :: ·) hitems,
        List.forall_mem_cons.2 ⟨hlt, hbefore⟩, hafter⟩
    · rw [if_neg (by simpa using hlonger)]
      exact (ih best).insert_second (not_lt.1 hlonger)

/-- The search starts with the first segment, whose length is never below zero. -/
theorem longestFrom_none (s : Point ℝ × Point ℝ) (rest : List (Point ℝ × Point ℝ)) :
    longestFrom s none (s :: rest) = longestFrom s (some (manhattan s)) rest := by
  have hlength : (0.0 : ℝ) ≤ manhattan s := by
    rw [manhattan]
    norm_num
    positivity
  rw [longestFrom, segmentLength_eq]
  exact if_pos (decide_eq_true hlength)

theorem middle_eq (s : Point ℝ × Point ℝ) : middle s = ⟨(s.1.x + s.2.x) / 2, (s.1.y + s.2.y) / 2⟩ := by
  rw [middle]
  norm_num

theorem onLine_middle {s : Point ℝ × Point ℝ} {line : List (Point ℝ)} (hs : s ∈ segments line) : OnLine (middle s) line := by
  refine ⟨s, hs, 1 / 2, by norm_num, by norm_num, ?_⟩
  rw [middle_eq, Point.mk.injEq]
  constructor <;> ring

theorem exists_labelAnchor {line : List (Point ℝ)} (h : 2 ≤ line.length) : ∃ s,
    IsFirstLongest manhattan s (segments line) ∧ labelAnchor? line = some (middle s) := by
  match line, h with
  | p :: q :: rest, _ =>
    have hsegments : segments (p :: q :: rest) = (p, q) :: segments (q :: rest) := rfl
    refine ⟨longestFrom (p, q) none (segments (p :: q :: rest)), ?_, rfl⟩
    rw [hsegments, longestFrom_none]
    exact isFirstLongest_longestFrom _ _

/-- The route of a line with finite coordinates, in exact arithmetic: neighbours differ in at most one
coordinate; the points of the line stand in it in their order, the first and the last at its ends, among
less than twice as many; a second routing changes nothing; and where there is a segment, the label is
anchored at the middle of the first one of the greatest length, hence on the line. -/
theorem route_and_anchor (points : List (Point Float)) (hfinite : ∀ p ∈ points, p.IsFinite) :
    (route points).map Point.exact = route (points.map Point.exact) ∧
    ((route points).map Point.exact).IsChain (fun p q => p.x = q.x ∨ p.y = q.y) ∧
    points.Sublist (route points) ∧
    (route points).head? = points.head? ∧ (route points).getLast? = points.getLast? ∧
    (route points).length ≤ 2 * points.length - 1 ∧
    route (route points) = route points ∧
    (2 ≤ (route points).length → ∃ s anchor,
      IsFirstLongest manhattan s (segments ((route points).map Point.exact)) ∧
      labelAnchor? ((route points).map Point.exact) = some anchor ∧
      anchor = ⟨(s.1.x + s.2.x) / 2, (s.1.y + s.2.y) / 2⟩ ∧
      OnLine anchor ((route points).map Point.exact)) := by
  have hproper : ∀ p ∈ points, p.Proper := fun p hp => (hfinite p hp).proper
  refine ⟨map_exact_route hfinite, ?_, sublist_route points, head?_route points, getLast?_route points,
    length_route_le points, route_route hproper, fun hlength => ?_⟩
  · have hexact : ∀ p ∈ points.map Point.exact, p.Proper := fun p _ => ⟨beq_self_eq_true _, beq_self_eq_true _⟩
    rw [map_exact_route hfinite]
    refine (isChain_route hexact).imp fun p q hpq => ?_
    simpa [Point.Aligned] using hpq
  · have hline : 2 ≤ ((route points).map Point.exact).length := by rwa [List.length_map]
    obtain ⟨s, hs, hanchor⟩ := exists_labelAnchor hline
    have hmem : s ∈ segments ((route points).map Point.exact) := by
      obtain ⟨before, after, hitems, -⟩ := hs
      rw [hitems]
      exact List.mem_append_right _ List.mem_cons_self
    exact ⟨s, middle s, hs, hanchor, middle_eq s, onLine_middle hmem⟩

/-- A slanted line with a repeated point and a stretch along an axis: two corners are put in. -/
theorem route_and_anchor_slanted :
    let points : List (Point Float) := [⟨0, 0⟩, ⟨4, 2⟩, ⟨4, 2⟩, ⟨4, 5⟩, ⟨1, 6⟩]
    (∀ p ∈ points, p.IsFinite) ∧ (route points).length = 7 ∧
      ∃ anchor, labelAnchor? ((route points).map Point.exact) = some anchor ∧
        OnLine anchor ((route points).map Point.exact) := by
  intro points
  have hfinite : ∀ p ∈ points, p.IsFinite := by
    simp only [points, Point.IsFinite, List.forall_mem_cons]
    decide +kernel
  have hlength : (route points).length = 7 := by decide +kernel
  obtain ⟨s, anchor, -, hanchor, -, hon⟩ := (route_and_anchor points hfinite).2.2.2.2.2.2.2 (by omega)
  exact ⟨hfinite, hlength, anchor, hanchor, hon⟩

end MemoryCompiler.Diagram
