import PawnScope.Proofs.Path.Normal
/-!
The place that a path leads to, and what folding makes of it. A path climbs some directories up from
where it begins and goes down along names. Folding keeps the names and whether the path begins at the
root; of the climbs of a relative path it keeps only whether they are odd, since a `..` takes away the
`..` that was kept before it. Main result: `ofPath_locate`, for which paths the place stays the same.
-/

namespace PawnScope

namespace Path

/-- One component further, from a place that is given by the names that lead to it from the root. -/
def Component.enter (place : List Text) : Component → List Text
  | root => []
  | current => place
  | parent => place.dropLast
  | name text => place ++ [text]

/-- The place that a path leads to from the directory `base`. -/
def locate (path : Path) (base : List Text) : List Text :=
  path.components.foldl Component.enter base

/-- So many directories up, and then down along names. -/
structure Route where
  climbs : Nat
  names : List Text
deriving DecidableEq, Repr

namespace Route

variable {route : Route} {segment : Text} {segments : List Text}

/-- A route with one more segment: `..` takes the last name back, and climbs if there is none. -/
def extend (route : Route) (segment : Text) : Route :=
  if segment = up then
    if route.names = [] then ⟨route.climbs + 1, []⟩ else ⟨route.climbs, route.names.dropLast⟩
  else ⟨route.climbs, route.names ++ [segment]⟩

/-- The route along some segments. -/
def along (segments : List Text) : Route :=
  segments.foldl extend ⟨0, []⟩

/-- The place at the end of a route that begins at `base`. -/
def place (route : Route) (base : List Text) : List Text :=
  base.take (base.length - route.climbs) ++ route.names

/-- The segments that folding leaves of a route. -/
def folded (route : Route) : List Text :=
  List.replicate (route.climbs % 2) up ++ route.names

theorem place_extend (route : Route) (segment : Text) (base : List Text) :
    (route.extend segment).place base = Component.enter (route.place base) (ofSegment segment) := by
  unfold extend ofSegment
  by_cases isUp : segment = up
  · rw [if_pos isUp, if_pos isUp, Component.enter]
    by_cases bare : route.names = []
    · rw [if_pos bare, place, place, bare, List.append_nil, List.append_nil, List.dropLast_eq_take,
        List.take_take, List.length_take]
      dsimp only
      congr 1
      omega
    · rw [if_neg bare, place, place, List.dropLast_append_of_ne_nil bare]
  · rw [if_neg isUp, if_neg isUp, Component.enter, place, place, List.append_assoc]

/-- Going along segments one after the other leads to the end of their route. -/
theorem place_foldl (segments : List Text) (route : Route) (base : List Text) :
    (segments.map ofSegment).foldl Component.enter (route.place base) =
      (segments.foldl extend route).place base := by
  induction segments generalizing route with
  | nil => rfl
  | cons segment rest ih =>
    rw [List.map_cons, List.foldl_cons, List.foldl_cons, ← place_extend, ih]

theorem not_mem_extend (plain : up ∉ route.names) (segment : Text) :
    up ∉ (route.extend segment).names := by
  unfold extend
  split
  · split
    · exact List.not_mem_nil
    · exact fun member => plain (List.dropLast_subset _ member)
  · next notUp =>
    rw [List.mem_append, List.mem_singleton]
    rintro (early | same)
    · exact plain early
    · exact notUp same.symm

theorem not_mem_foldl (plain : up ∉ route.names) (segments : List Text) :
    up ∉ (segments.foldl extend route).names := by
  induction segments generalizing route with
  | nil => exact plain
  | cons segment rest ih => exact ih (not_mem_extend plain segment)

theorem not_mem_along (segments : List Text) : up ∉ (along segments).names :=
  not_mem_foldl List.not_mem_nil segments

theorem folded_extend (route : Route) (segment : Text) :
    (route.extend segment).folded = SourceId.foldSegment route.folded segment := by
  unfold extend SourceId.foldSegment
  by_cases isUp : segment = up
  · rw [if_pos isUp, if_pos isUp]
    by_cases bare : route.names = []
    · -- two climbs in a row take each other away
      rw [if_pos bare, folded, folded, bare, List.append_nil, List.append_nil]
      rcases Nat.mod_two_eq_zero_or_one route.climbs with even | odd
      · simp [even, Nat.add_mod]
      · simp [odd, Nat.add_mod]
    · rw [if_neg bare, folded, folded, List.dropLast_append_of_ne_nil bare]
      simp [bare]
  · rw [if_neg isUp, if_neg isUp, folded, folded, List.append_assoc]

theorem folded_foldl (segments : List Text) (route : Route) :
    segments.foldl SourceId.foldSegment route.folded = (segments.foldl extend route).folded := by
  induction segments generalizing route with
  | nil => rfl
  | cons segment rest ih =>
    rw [List.foldl_cons, List.foldl_cons, ← folded_extend, ih]

theorem foldl_climbs (count climbs : Nat) :
    (List.replicate count up).foldl extend ⟨climbs, []⟩ = ⟨climbs + count, []⟩ := by
  induction count generalizing climbs with
  | zero => rfl
  | succ count ih =>
    have climbed : extend ⟨climbs, []⟩ up = ⟨climbs + 1, []⟩ := by simp [extend]
    rw [List.replicate_succ, List.foldl_cons, climbed, ih, Nat.add_assoc, Nat.add_comm 1]

theorem foldl_names {names : List Text} (plain : up ∉ names) (climbs : Nat) (before : List Text) :
    names.foldl extend ⟨climbs, before⟩ = ⟨climbs, before ++ names⟩ := by
  induction names generalizing before with
  | nil => rw [List.append_nil]; rfl
  | cons first rest ih =>
    obtain ⟨notUp, plain'⟩ := not_or.mp (List.mem_cons.not.mp plain)
    have entered : extend ⟨climbs, before⟩ first = ⟨climbs, before ++ [first]⟩ := by
      simp [extend, Ne.symm notUp]
    rw [List.foldl_cons, entered, ih plain', List.append_assoc, List.singleton_append]

/-- The route of what folding leaves. -/
theorem along_folded (plain : up ∉ route.names) :
    along route.folded = ⟨route.climbs % 2, route.names⟩ := by
  rw [along, folded, List.foldl_append, foldl_climbs, foldl_names plain, Nat.zero_add,
    List.nil_append]

/-- Two routes along the same names lead to one place if they climb alike, or both up to the root. -/
theorem place_eq_iff (names : List Text) (one two : Nat) (base : List Text) :
    place ⟨one, names⟩ base = place ⟨two, names⟩ base ↔ one = two ∨ base.length ≤ min one two := by
  rw [place, place, List.append_left_inj, List.take_eq_take_iff]
  dsimp only
  omega

end Route

/-- The route of a path from where it begins. -/
def route (path : Path) : Route :=
  .along path.segments

/-- A path that begins at the root, or climbs no higher than to the directory above its beginning. -/
def IsShallow (path : Path) : Prop :=
  path.isRooted = true ∨ path.route.climbs ≤ 1

instance (path : Path) : Decidable path.IsShallow :=
  inferInstanceAs (Decidable (_ ∨ _))

theorem locate_eq (path : Path) (base : List Text) :
    path.locate base = path.route.place (if path.isRooted then [] else base) := by
  have begun (start : List Text) : Route.place ⟨0, []⟩ start = start := by simp [Route.place]
  rw [route, Route.along, ← Route.place_foldl, begun, locate, components, List.foldl_append, isRooted]
  cases path.parts.1 <;> rfl

end Path

namespace SourceId

open PawnScope.Path

/-- Folding keeps the root and the names of a path, and of the climbs whether they are odd. -/
theorem route_ofPath (path : Path) :
    (ofPath path).toPath.isRooted = path.isRooted ∧
      (ofPath path).toPath.route = ⟨path.route.climbs % 2, path.route.names⟩ := by
  obtain ⟨rooted, segments⟩ := parts_ofPath path
  have folded : path.segments.foldl foldSegment [] = path.route.folded :=
    Route.folded_foldl path.segments ⟨0, []⟩
  rw [toPath_ofPath]
  refine ⟨rooted, ?_⟩
  rw [Path.route, segments, folded]
  exact Route.along_folded (Route.not_mem_along path.segments)

/--
Folding keeps the place of a path, read from the directory `base`, if the path begins at the root or
climbs at most once, or if `base` is too near to the root for the climbs to matter, and in no other case.
So two such paths with one id lead to one place.
-/
theorem ofPath_locate (path : Path) (base : List Text) :
    ((ofPath path).toPath.locate base = path.locate base ↔
      path.IsShallow ∨ base.length ≤ path.route.climbs % 2) ∧
    ∀ other, path.IsShallow → other.IsShallow → ofPath other = ofPath path →
      other.locate base = path.locate base := by
  have kept (path : Path) : (ofPath path).toPath.locate base = path.locate base ↔
      path.IsShallow ∨ base.length ≤ path.route.climbs % 2 := by
    obtain ⟨rooted, route⟩ := route_ofPath path
    rw [locate_eq, locate_eq, rooted, route, Route.place_eq_iff, IsShallow]
    cases path.isRooted with
    | true => simp
    | false =>
      simp only [Bool.false_eq_true, if_false, false_or]
      omega
  refine ⟨kept path, fun other shallow shallow' same => ?_⟩
  rw [← (kept other).mpr (.inl shallow'), same, (kept path).mpr (.inl shallow)]

/-- Paths from the root and from elsewhere, with directories that are entered and left again. -/
theorem ofPath_locate_back :
    (ofPath ⟨"/srv/../../inc/./a".toList⟩).toPath.locate [] =
        Path.locate ⟨"/srv/../../inc/./a".toList⟩ [] ∧
      (ofPath ⟨"b/../../inc/a".toList⟩).toPath.locate ["srv".toList, "src".toList] =
        Path.locate ⟨"b/../../inc/a".toList⟩ ["srv".toList, "src".toList] ∧
      Path.locate ⟨"./../inc//a".toList⟩ ["srv".toList] =
        Path.locate ⟨"b/../../inc/a".toList⟩ ["srv".toList] := by
  refine ⟨(ofPath_locate _ _).1.mpr (.inl ?_), (ofPath_locate _ _).1.mpr (.inl ?_),
    (ofPath_locate ⟨"b/../../inc/a".toList⟩ _).2 ⟨"./../inc//a".toList⟩ ?_ ?_ ?_⟩
  all_goals decide +kernel

/-- The second of two climbs takes the first one back: the id is that of another file. -/
theorem ofPath_locate_climbs :
    (¬∀ (path : Path) (base : List Text),
      (ofPath path).toPath.locate base = path.locate base) ∧
    ¬∀ (one two : Path) (base : List Text), ofPath one = ofPath two →
      one.locate base = two.locate base := by
  refine ⟨fun always => ?_, fun always => ?_⟩
  · have same := always ⟨"../../a.inc".toList⟩ ["srv".toList, "src".toList]
    exact absurd same (by decide +kernel)
  · have same := always ⟨"../../a.inc".toList⟩ ⟨"a.inc".toList⟩ ["srv".toList, "src".toList]
      (by decide +kernel)
    exact absurd same (by decide +kernel)

end SourceId

end PawnScope
