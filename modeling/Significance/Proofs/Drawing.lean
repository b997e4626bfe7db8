import Significance.PointPlot
import Significance.Proofs.Intervals

/-! # Drawn comparisons

A point plot shows every group of its comparison, in the colour and at the offset of its series,
and draws nothing outside of its axes. -/

namespace Significance

/-! ## Colours -/

namespace Palette

/-- The number of the colours of a palette. -/
def size : Palette → ℕ
  | .default => 4
  | .set2 => 8
  | .colorBlind => 7

/-- The colours of a palette differ, so a colour comes again only where the palette does. -/
theorem color_eq_color_iff (palette : Palette) (i j : ℕ) :
    palette.color i = palette.color j ↔ i % palette.size = j % palette.size := by
  have hnodup : (palette.first :: palette.others).Nodup := by cases palette <;> decide
  have hlength : (palette.first :: palette.others).length = palette.size := by
    cases palette <;> rfl
  have hlt (i : ℕ) : i % palette.size < (palette.first :: palette.others).length := by
    rw [hlength]
    exact Nat.mod_lt i (by cases palette <;> decide)
  rw [color, color, hlength, List.getD_eq_getElem _ _ (hlt i), List.getD_eq_getElem _ _ (hlt j),
    hnodup.getElem_inj_iff]

end Palette

namespace PointPlot

variable {α : Type}

/-! ## What is drawn -/

def Instruction.shapes : Instruction α → List (Shape α)
  | .series shapes => shapes
  | _ => []

/-- The shapes of a drawing, in the order in which they are drawn. -/
def shapes (instructions : List (Instruction α)) : List (Shape α) :=
  instructions.flatMap Instruction.shapes

/-- The ends of the `x` axis and of the `y` axis. -/
def Instruction.axes? : Instruction α → Option ((α × α) × (α × α))
  | .axes left right bottom top => some ((left, right), (bottom, top))
  | _ => none

/-- The places that a shape is drawn through or around. -/
def Shape.points : Shape α → List (α × α)
  | .path _ points => points
  | .circle _ centre _ => [centre]

section

variable [Scalar α] (config : Config α) (comparison : Comparison α)

/-- The colour of a series. -/
def colorOf (hue : Option String) : Color :=
  config.palette.color ((hues comparison).idxOf hue)

/-- The place of a group on the `x` axis: the position of its level, moved aside by the offset of
its series. -/
def placeOf (group : GroupSummary α) : α :=
  Scalar.ofNat (comparison.xLevels.idxOf group.x) +
    offset config.dodge (hues comparison).length ((hues comparison).idxOf group.hue)

/-- The dot at the mean of a group. -/
def dot (group : GroupSummary α) : Shape α :=
  .circle (.filled (colorOf config comparison group.hue))
    (placeOf config comparison group, group.mean) 4

/-- The bar from end to end of the interval of a group, and a cap at either end, a twentieth of the
way between two levels to each side. -/
def bars (group : GroupSummary α) : List (Shape α) :=
  let color := colorOf config comparison group.hue
  let x := placeOf config comparison group
  [.path (.thin color) [(x, group.lower), (x, group.upper)],
    .path (.thin color) [(x - 0.05, group.lower), (x + 0.05, group.lower)],
    .path (.thin color) [(x - 0.05, group.upper), (x + 0.05, group.upper)]]

/-- The line through the means of a series. -/
def line (hue : Option String) : Shape α :=
  .path (.wide (colorOf config comparison hue) 2)
    ((comparison.series hue).map fun group => (placeOf config comparison group, group.mean))

end

/-- The groups stand series by series, and each on a level of the `x` axis. -/
structure InSeries (comparison : Comparison α) : Prop where
  hues : (hues comparison).Nodup
  levels : ∀ group ∈ comparison.groups, group.x ∈ comparison.xLevels
  groups : (PointPlot.hues comparison).flatMap comparison.series = comparison.groups

variable [Scalar α] {config : Config α} {comparison : Comparison α}

/-! ## Series -/

theorem zipIdx_eq_map_idxOf {β : Type} [BEq β] [LawfulBEq β] {xs : List β} (h : xs.Nodup) :
    xs.zipIdx = xs.map fun x => (x, xs.idxOf x) := by
  apply List.ext_getElem
  · simp
  · intro i hi _
    have hlt : i < xs.length := by simpa using hi
    simp [List.Nodup.idxOf_getElem h i hlt]

omit [Scalar α] in
theorem series_sublist (hue : Option String) :
    (comparison.series hue).Sublist comparison.groups :=
  List.filter_sublist

omit [Scalar α] in
theorem hue_of_mem_series {hue : Option String} {group : GroupSummary α}
    (h : group ∈ comparison.series hue) : group.hue = hue :=
  of_decide_eq_true (List.mem_filter.mp h).2

/-- Groups on levels of the axis are all placed. -/
theorem place_eq_map {levels : List String} {groups : List (GroupSummary α)}
    (h : ∀ group ∈ groups, group.x ∈ levels) (aside : α) :
    place levels aside groups =
      groups.map fun group => (Scalar.ofNat (levels.idxOf group.x) + aside, group) := by
  rw [place, ← List.filterMap_eq_map]
  apply List.filterMap_congr
  intro group hgroup
  obtain ⟨i, hi⟩ := Option.isSome_iff_exists.mp (List.isSome_idxOf?.mpr (h group hgroup))
  rw [Function.comp_apply, List.idxOf_eq_getD_idxOf?, hi]
  rfl

/-- A series is placed at the position of its hue. -/
theorem place_series (h : InSeries comparison) {hue : Option String} :
    place comparison.xLevels
        (offset config.dodge (hues comparison).length ((hues comparison).idxOf hue))
        (comparison.series hue) =
      (comparison.series hue).map fun group => (placeOf config comparison group, group) := by
  rw [place_eq_map fun group hgroup => h.levels group ((series_sublist hue).subset hgroup)]
  apply List.map_congr_left
  intro group hgroup
  rw [placeOf, hue_of_mem_series hgroup]

/-! ## Shapes -/

omit [Scalar α] in
theorem shapes_append (first second : List (Instruction α)) :
    shapes (first ++ second) = shapes first ++ shapes second :=
  List.flatMap_append

theorem shapes_frame : shapes (frame config comparison) = [] := by
  cases h : config.title <;> simp [shapes, frame, Instruction.shapes, h]

omit [Scalar α] in
theorem shapes_legend : shapes (legend comparison) = [] := by
  unfold legend
  split <;> rfl

theorem shapes_seriesInstructions (color : Color) (hue : Option String)
    (placed : List (Placed α)) :
    shapes (seriesInstructions color hue placed) =
      (placed.filter hasInterval).flatMap (whisker color) ++
        [.path (.wide color 2) (placed.map meanPoint)] ++
        placed.map fun p => .circle (.filled color) (meanPoint p) 4 := by
  cases hue <;> simp [shapes, seriesInstructions, Instruction.shapes]

/-- A group has both ends of an interval. -/
def isBounded (group : GroupSummary α) : Bool :=
  Scalar.isFinite group.lower && Scalar.isFinite group.upper

/-- Each series draws its intervals, its line and its dots. -/
theorem shapes_series (hue : Option String) :
    shapes (seriesInstructions (colorOf config comparison hue) hue
        ((comparison.series hue).map fun group => (placeOf config comparison group, group))) =
      ((comparison.series hue).filter isBounded).flatMap (bars config comparison) ++
        ([line config comparison hue] ++
          (comparison.series hue).map (dot config comparison)) := by
  have hbars : ∀ group ∈ (comparison.series hue).filter isBounded,
      whisker (colorOf config comparison hue) (placeOf config comparison group, group) =
        bars config comparison group := by
    intro group hgroup
    rw [← hue_of_mem_series (List.mem_of_mem_filter hgroup)]
    rfl
  have hdots : ∀ group ∈ comparison.series hue,
      Shape.circle (.filled (colorOf config comparison hue))
        (meanPoint (placeOf config comparison group, group)) 4 =
          dot config comparison group := by
    intro group hgroup
    rw [← hue_of_mem_series hgroup]
    rfl
  rw [shapes_seriesInstructions, List.filter_map, List.flatMap_map, List.map_map, List.map_map,
    List.append_assoc]
  congr 1
  · exact List.flatMap_congr hbars
  · exact congrArg _ (List.map_congr_left hdots)

theorem shapes_allSeries (h : InSeries comparison) :
    shapes (allSeries config comparison) = (hues comparison).flatMap fun hue =>
      ((comparison.series hue).filter isBounded).flatMap (bars config comparison) ++
        ([line config comparison hue] ++
          (comparison.series hue).map (dot config comparison)) := by
  simp only [allSeries, zipIdx_eq_map_idxOf h.hues, List.flatMap_map, shapes, List.flatMap_assoc]
  apply List.flatMap_congr
  intro hue _
  rw [place_series h]
  exact shapes_series hue

/-- The instructions of a drawing that can be written. -/
def instructions (config : Config α) (comparison : Comparison α) : List (Instruction α) :=
  frame config comparison ++ allSeries config comparison ++ legend comparison ++ [.present]

theorem draw_eq_ok (h : comparison.groups ≠ []) :
    draw config true comparison = .ok (instructions config comparison) := by
  rw [draw, if_neg (by simpa using h), if_neg (by simp)]
  rfl

theorem shapes_instructions :
    shapes (instructions config comparison) = shapes (allSeries config comparison) := by
  rw [instructions, shapes_append, shapes_append, shapes_append, shapes_frame, shapes_legend,
    List.nil_append, List.append_nil]
  exact List.append_nil _

/-- All in all there is an interval for every group that has both ends of one, a line for every
series and a dot for every group. -/
theorem shapes_perm (h : InSeries comparison) :
    (shapes (instructions config comparison)).Perm
      ((comparison.groups.filter isBounded).flatMap (bars config comparison) ++
        ((hues comparison).map (line config comparison) ++
          comparison.groups.map (dot config comparison))) := by
  have hbars : ((hues comparison).flatMap fun hue =>
      ((comparison.series hue).filter isBounded).flatMap (bars config comparison)) =
        (comparison.groups.filter isBounded).flatMap (bars config comparison) := by
    rw [← h.groups, List.filter_flatMap, List.flatMap_assoc]
  have hlines : ((hues comparison).flatMap fun hue => [line config comparison hue]) =
      (hues comparison).map (line config comparison) :=
    List.map_eq_flatMap.symm
  have hdots : ((hues comparison).flatMap fun hue =>
      (comparison.series hue).map (dot config comparison)) =
        comparison.groups.map (dot config comparison) := by
    rw [← h.groups, List.map_flatMap]
  rw [shapes_instructions, shapes_allSeries h, ← hbars, ← hlines, ← hdots]
  refine (List.flatMap_append_perm _ _ _).symm.trans ?_
  exact (List.flatMap_append_perm _ _ _).symm.append_left _

/-! ## The places of shapes -/

/-- Every shape is drawn at a group: at the mean, or at an end of its interval, with half a cap to
either side. -/
theorem exists_group_of_point (h : InSeries comparison) {shape : Shape α}
    (hshape : shape ∈ shapes (instructions config comparison)) {point : α × α}
    (hpoint : point ∈ shape.points) :
    ∃ group ∈ comparison.groups,
      (point.1 = placeOf config comparison group ∧ point.2 = group.mean) ∨
      (isBounded group = true ∧ (point.2 = group.lower ∨ point.2 = group.upper) ∧
        (point.1 = placeOf config comparison group ∨
          point.1 = placeOf config comparison group - 0.05 ∨
          point.1 = placeOf config comparison group + 0.05)) := by
  rw [(shapes_perm h).mem_iff, List.mem_append, List.mem_append] at hshape
  rcases hshape with hbars | hline | hdot
  · obtain ⟨group, hgroup, hbar⟩ := List.mem_flatMap.mp hbars
    obtain ⟨hmem, hbounded⟩ := List.mem_filter.mp hgroup
    refine ⟨group, hmem, Or.inr ⟨hbounded, ?_⟩⟩
    simp only [bars, List.mem_cons, List.not_mem_nil, or_false] at hbar
    rcases hbar with rfl | rfl | rfl
    · rcases List.mem_pair.mp hpoint with rfl | rfl <;> simp
    · rcases List.mem_pair.mp hpoint with rfl | rfl <;> simp
    · rcases List.mem_pair.mp hpoint with rfl | rfl <;> simp
  · obtain ⟨hue, -, rfl⟩ := List.mem_map.mp hline
    obtain ⟨group, hgroup, rfl⟩ := List.mem_map.mp hpoint
    exact ⟨group, (series_sublist hue).subset hgroup, Or.inl ⟨rfl, rfl⟩⟩
  · obtain ⟨group, hgroup, rfl⟩ := List.mem_map.mp hdot
    obtain rfl := List.mem_singleton.mp hpoint
    exact ⟨group, hgroup, Or.inl ⟨rfl, rfl⟩⟩

theorem axes?_of_mem_allSeries {instruction : Instruction α}
    (h : instruction ∈ allSeries config comparison) : instruction.axes? = none := by
  obtain ⟨⟨hue, i⟩, -, hmem⟩ := List.mem_flatMap.mp h
  cases hue <;> simp only [seriesInstructions, Option.toList_none, Option.toList_some,
    List.map_nil, List.map_cons, List.append_nil, List.cons_append, List.nil_append,
    List.mem_cons, List.not_mem_nil, or_false] at hmem
  · rcases hmem with rfl | rfl | rfl <;> rfl
  · rcases hmem with rfl | rfl | rfl | rfl <;> rfl

/-- A drawing has one pair of axes. -/
theorem axes_instructions :
    (instructions config comparison).filterMap Instruction.axes? =
      [((-0.5, Scalar.ofNat comparison.xLevels.length - 0.5), yRange comparison.groups)] := by
  have hframe : (frame config comparison).filterMap Instruction.axes? =
      [((-0.5, Scalar.ofNat comparison.xLevels.length - 0.5), yRange comparison.groups)] := by
    unfold frame
    cases config.title <;> rfl
  have hseries : (allSeries config comparison).filterMap Instruction.axes? = [] :=
    List.filterMap_eq_nil_iff.mpr fun _ => axes?_of_mem_allSeries
  have hlegend : (legend comparison).filterMap Instruction.axes? = [] := by
    unfold legend
    split <;> rfl
  rw [instructions, List.filterMap_append, List.filterMap_append, List.filterMap_append, hframe,
    hseries, hlegend]
  rfl

end PointPlot

/-! ## Series of a comparison -/

namespace Comparison

variable {α : Type} [Scalar α] {d : Distribution α} {points : List (Point α)}

/-- Of parts joined together, the members with one key are the part of this key. -/
theorem filter_flatMap_key {β γ : Type} [DecidableEq γ] {keys : List γ} {part : γ → List β}
    {key : β → γ} (hkey : ∀ k, ∀ x ∈ part k, key x = k) (hnodup : keys.Nodup) {k : γ}
    (hk : k ∈ keys) : (keys.flatMap part).filter (fun x => key x = k) = part k := by
  have hself : (part k).filter (fun x => key x = k) = part k :=
    List.filter_eq_self.mpr fun x hx => decide_eq_true (hkey k x hx)
  have hother : ∀ other, other ≠ k → (part other).filter (fun x => key x = k) = [] := by
    intro other hne
    rw [List.filter_eq_nil_iff]
    intro x hx
    simpa [hkey other x hx] using hne
  induction keys with
  | nil => cases hk
  | cons a keys ih =>
      obtain ⟨hnotin, hnodup⟩ := List.nodup_cons.mp hnodup
      rw [List.flatMap_cons, List.filter_append]
      rcases List.mem_cons.mp hk with rfl | hk
      · have hrest : (keys.flatMap part).filter (fun x => key x = k) = [] := by
          rw [List.filter_flatMap, List.flatMap_eq_nil_iff]
          intro other hmem
          exact hother other fun heq => hnotin (heq ▸ hmem)
        rw [hself, hrest, List.append_nil]
      · rw [hother a fun heq => hnotin (heq ▸ hk), List.nil_append, ih hnodup hk]

/-- The summaries of one hue are those of the levels that occur with it, in their order. -/
theorem filter_summaries {xLevels : List String} {hues : List (Option String)}
    (hnodup : hues.Nodup) {hue : Option String} (hhue : hue ∈ hues) :
    (summaries d points xLevels hues).filter (fun group => group.hue = hue) =
      (xLevels.filter fun x => ∃ point ∈ points, point.x = x ∧ point.hue = hue).map fun x =>
        summarize d x hue (valuesAt points x hue) := by
  rw [summaries_eq]
  apply filter_flatMap_key _ hnodup hhue
  intro k group hgroup
  obtain ⟨x, -, rfl⟩ := List.mem_map.mp hgroup
  rfl

section

variable {x y : String} {hue : Option String} {normalized : Bool} {comparison : Comparison α}
  (hcomparison : comparison = ofColumns d x y hue normalized (points.map Point.x)
    (points.map Point.hue) (points.map Point.y))
  (hhue : ∀ point ∈ points, point.hue.isSome = hue.isSome) (hgroups : comparison.groups ≠ [])

include hcomparison hhue hgroups

theorem hues_eq_hueKeys : PointPlot.hues comparison = hueKeys points hue := by
  subst hcomparison
  rw [ofColumns_eq] at hgroups ⊢
  cases hue with
  | none =>
      have hnone : points.filterMap Point.hue = [] := by
        rw [List.filterMap_eq_nil_iff]
        intro point hpoint
        simpa using hhue point hpoint
      have hlevels : levelOrder (points.filterMap Point.hue) = [] := by
        rw [hnone]
        exact (perm_levelOrder []).eq_nil
      simp [PointPlot.hues, hueKeys, hlevels]
  | some field =>
      -- Without any hue there would be no group.
      have hlevels : levelOrder (points.filterMap Point.hue) ≠ [] := by
        intro hnil
        simp [hueKeys, hnil, summaries] at hgroups
      simp [PointPlot.hues, hueKeys, hlevels]

theorem series_eq {own : Option String} (hown : own ∈ PointPlot.hues comparison) :
    comparison.series own =
      (comparison.xLevels.filter fun x => ∃ point ∈ points, point.x = x ∧ point.hue = own).map
        fun x => summarize d x own (valuesAt points x own) := by
  rw [hues_eq_hueKeys hcomparison hhue hgroups] at hown
  subst hcomparison
  rw [ofColumns_eq]
  exact filter_summaries (nodup_hueKeys hue) hown

theorem inSeries : PointPlot.InSeries comparison := by
  have hkeys := hues_eq_hueKeys hcomparison hhue hgroups
  constructor
  · rw [hkeys]
    exact nodup_hueKeys hue
  · intro group hgroup
    rw [hcomparison, ofColumns_eq] at hgroup ⊢
    obtain ⟨_, -, _, hlevel, -, rfl⟩ := mem_summaries.mp hgroup
    exact hlevel
  · rw [List.flatMap_congr fun own hown => series_eq hcomparison hhue hgroups hown, hkeys,
      hcomparison, ofColumns_eq]
    exact summaries_eq.symm

/-- A series has the groups of its hue, in the order of the levels. -/
theorem map_x_series {own : Option String} (hown : own ∈ PointPlot.hues comparison) :
    (comparison.series own).map GroupSummary.x = comparison.xLevels.filter fun x =>
      ∃ group ∈ comparison.groups, group.x = x ∧ group.hue = own := by
  rw [series_eq hcomparison hhue hgroups hown, List.map_map]
  have hx : ∀ levels : List String, levels.map (GroupSummary.x ∘ fun x =>
      summarize d x own (valuesAt points x own)) = levels := fun levels => List.map_id levels
  have hpartitions : Partitions points comparison := hcomparison ▸ partitions_ofColumns hhue
  rw [hx]
  apply List.filter_congr
  intro label _
  exact decide_eq_decide.mpr (hpartitions.exists_group_iff label own).symm

end

end Comparison

namespace PointPlot

open Exact Comparison

variable [Wording]

/-! ## Real places -/

/-- How far a series is moved aside: the series share the dodge evenly, on both sides of the level,
and a single one stays at the level. -/
noncomputable def aside (dodge : ℝ) (count position : ℕ) : ℝ :=
  if 1 < count then dodge * (position / (count - 1) - 0.5) else 0

theorem offset_real (dodge : ℝ) (count position : ℕ) :
    offset (real dodge) count position = real (aside dodge count position) := by
  unfold offset aside
  split
  · next hcount =>
    have hcast : ((count - 1 : ℕ) : ℝ) = count - 1 := by
      rw [Nat.cast_sub hcount.le, Nat.cast_one]
    have hone : (1 : ℝ) < count := Nat.one_lt_cast.mpr hcount
    rw [ofNat_eq, ofNat_eq, hcast, real_div _ (by linarith), ofScientific_eq, real_sub, real_mul]
  · exact zero_eq

omit [Wording] in
/-- Series are moved aside by half the dodge at most. -/
theorem abs_aside_le {dodge : ℝ} (hnonneg : 0 ≤ dodge) (hle : dodge ≤ 0.9) {count position : ℕ}
    (h : position < count) : |aside dodge count position| ≤ 0.45 := by
  unfold aside
  split
  · next hcount =>
    have hone : (1 : ℝ) < count := Nat.one_lt_cast.mpr hcount
    have hlast : (position : ℝ) + 1 ≤ count := by exact_mod_cast h
    -- The ratio is zero for the first series and one for the last.
    have hratio : (position : ℝ) / (count - 1) ≤ 1 := by
      rw [div_le_one (by linarith)]
      linarith
    have hratio' : 0 ≤ (position : ℝ) / (count - 1) :=
      div_nonneg (Nat.cast_nonneg _) (by linarith)
    have hhalf : |(position : ℝ) / (count - 1) - 0.5| ≤ 0.5 := by
      rw [abs_le]
      constructor <;> linarith
    calc |dodge * ((position : ℝ) / (count - 1) - 0.5)|
        = dodge * |(position : ℝ) / (count - 1) - 0.5| := by
          rw [abs_mul, abs_of_nonneg hnonneg]
      _ ≤ 0.9 * 0.5 := mul_le_mul hle hhalf (abs_nonneg _) (by norm_num)
      _ = 0.45 := by norm_num
  · norm_num

variable {comparison : Comparison Exact} {config : Config Exact}

/-- A group stands at the position of its level, moved aside with its series. -/
theorem placeOf_real {dodge : ℝ} (hdodge : config.dodge = real dodge)
    (group : GroupSummary Exact) :
    placeOf config comparison group = real (comparison.xLevels.idxOf group.x +
      aside dodge (hues comparison).length ((hues comparison).idxOf group.hue)) := by
  rw [placeOf, hdodge, offset_real, ofNat_eq, real_add]

theorem exists_placeOf {dodge : ℝ} (hdodge : config.dodge = real dodge) (hnonneg : 0 ≤ dodge)
    (hle : dodge ≤ 0.9) (h : InSeries comparison) {group : GroupSummary Exact}
    (hgroup : group ∈ comparison.groups) :
    ∃ place : ℝ, placeOf config comparison group = real place ∧ -0.45 ≤ place ∧
      place ≤ comparison.xLevels.length - 0.55 := by
  have hhue : group.hue ∈ hues comparison := by
    rw [← h.groups] at hgroup
    obtain ⟨hue, hhue, hmem⟩ := List.mem_flatMap.mp hgroup
    rwa [hue_of_mem_series hmem]
  have hlevel := List.idxOf_lt_length_of_mem (h.levels group hgroup)
  have hsmall := abs_aside_le hnonneg hle (List.idxOf_lt_length_of_mem hhue)
  obtain ⟨hleft, hright⟩ := abs_le.mp hsmall
  have hlast : (comparison.xLevels.idxOf group.x : ℝ) + 1 ≤ comparison.xLevels.length := by
    exact_mod_cast hlevel
  have hfirst : (0 : ℝ) ≤ comparison.xLevels.idxOf group.x := Nat.cast_nonneg _
  exact ⟨_, placeOf_real hdodge group, by linarith, by linarith⟩

/-- An estimated group reaches from one real number to another, with its mean in between. The ends
are those of its interval, which groups of several records have. -/
theorem exists_extent {group : GroupSummary Exact} (h : Estimated group) :
    ∃ bottom middle top : ℝ, bottom ≤ middle ∧ middle ≤ top ∧ low group = real bottom ∧
      group.mean = real middle ∧ high group = real top ∧
      (isBounded group = true → group.lower = real bottom ∧ group.upper = real top) := by
  cases h with
  | single m _ hmean hlower hupper =>
      refine ⟨m, m, m, le_rfl, le_rfl, ?_, hmean, ?_, ?_⟩
      · rw [low, finiteOr, hlower, hmean]
        rfl
      · rw [high, finiteOr, hupper, hmean]
        rfl
      · intro hbounded
        rw [isBounded, hlower] at hbounded
        cases hbounded
  | several m half _ hmean hhalf hlower hupper =>
      refine ⟨m - half, m, m + half, by linarith, by linarith, ?_, hmean, ?_,
        fun _ => ⟨hlower, hupper⟩⟩
      · rw [low, finiteOr, hlower]
        rfl
      · rw [high, finiteOr, hupper]
        rfl

theorem isBounded_eq {group : GroupSummary Exact} (h : Estimated group) :
    isBounded group = decide (2 ≤ group.count) := by
  cases h with
  | single m hcount _ hlower _ =>
      rw [isBounded, hlower, hcount]
      rfl
  | several m half hcount _ _ hlower hupper =>
      rw [isBounded, hlower, hupper, decide_eq_true hcount]
      rfl

theorem exists_least {ys : List Exact} (hne : ys ≠ []) (h : ∀ y ∈ ys, y ∈ Set.range real) :
    ∃ m : ℝ, Scalar.least ys = real m ∧ ∀ y : ℝ, real y ∈ ys → m ≤ y := by
  obtain ⟨xs, rfl⟩ : ys ∈ Set.range (List.map real) := by
    rw [Set.range_list_map]
    exact h
  have hxs : xs ≠ [] := by simpa using hne
  obtain ⟨m, -, hm, hle⟩ := exists_least_real hxs
  exact ⟨m, hm, fun y hy => hle y ((List.mem_map_of_injective real_injective).mp hy)⟩

theorem exists_greatest {ys : List Exact} (hne : ys ≠ []) (h : ∀ y ∈ ys, y ∈ Set.range real) :
    ∃ m : ℝ, Scalar.greatest ys = real m ∧ ∀ y : ℝ, real y ∈ ys → y ≤ m := by
  obtain ⟨xs, rfl⟩ : ys ∈ Set.range (List.map real) := by
    rw [Set.range_list_map]
    exact h
  have hxs : xs ≠ [] := by simpa using hne
  obtain ⟨m, -, hm, hge⟩ := exists_greatest_real hxs
  exact ⟨m, hm, fun y hy => hge y ((List.mem_map_of_injective real_injective).mp hy)⟩

/-- The `y` axis reaches beyond all groups on either side. -/
theorem exists_yRange {groups : List (GroupSummary Exact)} (hne : groups ≠ [])
    (h : ∀ group ∈ groups, Estimated group) :
    ∃ bottom top : ℝ, yRange groups = (real bottom, real top) ∧
      ∀ group ∈ groups, (∀ y, low group = real y → bottom < y) ∧
        ∀ y, high group = real y → y < top := by
  have hlows : ∀ y ∈ groups.map low, y ∈ Set.range real := by
    intro y hy
    obtain ⟨group, hgroup, rfl⟩ := List.mem_map.mp hy
    obtain ⟨bottom, _, _, -, -, hlow, -⟩ := exists_extent (h group hgroup)
    exact ⟨bottom, hlow.symm⟩
  have hhighs : ∀ y ∈ groups.map high, y ∈ Set.range real := by
    intro y hy
    obtain ⟨group, hgroup, rfl⟩ := List.mem_map.mp hy
    obtain ⟨_, _, top, -, -, -, -, hhigh, -⟩ := exists_extent (h group hgroup)
    exact ⟨top, hhigh.symm⟩
  obtain ⟨least, hleast, hle⟩ := exists_least (by simpa using hne) hlows
  obtain ⟨greatest, hgreatest, hge⟩ := exists_greatest (by simpa using hne) hhighs
  let margin : ℝ := max ((greatest - least) * 0.1) 1e-9
  have hmargin : 0 < margin := lt_max_of_lt_right (by norm_num)
  refine ⟨least - margin, greatest + margin, ?_, fun group hgroup => ⟨?_, ?_⟩⟩
  · simp only [yRange, hleast, hgreatest, real_sub, ofScientific_eq, real_mul, maximum_real,
      real_add]
    rfl
  · intro y hy
    have := hle y (hy ▸ List.mem_map_of_mem hgroup)
    linarith
  · intro y hy
    have := hge y (hy ▸ List.mem_map_of_mem hgroup)
    linarith

/-! ## Every group, inside the axes -/

/-- A drawing shows a comparison: in the colour of its series and at its place it has a dot for
every group, a bar with two caps for every group of several records, and a line for every series,
through the groups of its hue in the order of the levels. The place of a group is the position of
its level, moved aside with its series. Two series have one colour only where the palette starts
anew. All of it is within the ends of the `x` axis and strictly between those of the `y` axis. -/
structure Shows (config : Config Exact) (comparison : Comparison Exact)
    (drawing : List (Instruction Exact)) : Prop where
  shapes_perm : (shapes drawing).Perm
    ((comparison.groups.filter fun group => 2 ≤ group.count).flatMap (bars config comparison) ++
      ((hues comparison).map (line config comparison) ++
        comparison.groups.map (dot config comparison)))
  placed : ∃ dodge : ℝ, config.dodge = real dodge ∧ ∀ group ∈ comparison.groups,
    placeOf config comparison group = real (comparison.xLevels.idxOf group.x +
      aside dodge (hues comparison).length ((hues comparison).idxOf group.hue))
  colored : ∀ hue other, colorOf config comparison hue = colorOf config comparison other ↔
    (hues comparison).idxOf hue % config.palette.size =
      (hues comparison).idxOf other % config.palette.size
  hues_eq : hues comparison =
    if comparison.hueField.isSome then comparison.hueLevels.map some else [none]
  ordered : ∀ hue ∈ hues comparison, (comparison.series hue).map GroupSummary.x =
    comparison.xLevels.filter fun x => ∃ group ∈ comparison.groups, group.x = x ∧ group.hue = hue
  inside : ∃ left right bottom top : ℝ,
    drawing.filterMap Instruction.axes? =
      [((real left, real right), (real bottom, real top))] ∧
    left = -0.5 ∧ right = comparison.xLevels.length - 0.5 ∧
    ∀ shape ∈ shapes drawing, ∀ point ∈ shape.points, ∃ x y : ℝ, point = (real x, real y) ∧
      left ≤ x ∧ x ≤ right ∧ bottom < y ∧ y < top

/-- Dots and ends of lines, bars and caps are at real places, caps at most a twentieth aside. -/
theorem point_inside {dodge : ℝ} (hdodge : config.dodge = real dodge) (hnonneg : 0 ≤ dodge)
    (hle : dodge ≤ 0.9) (h : InSeries comparison)
    (hestimated : ∀ group ∈ comparison.groups, Estimated group) {bottom top : ℝ}
    (hrange : ∀ group ∈ comparison.groups, (∀ y, low group = real y → bottom < y) ∧
      ∀ y, high group = real y → y < top) {shape : Shape Exact}
    (hshape : shape ∈ shapes (instructions config comparison)) {point : Exact × Exact}
    (hpoint : point ∈ shape.points) :
    ∃ x y : ℝ, point = (real x, real y) ∧ -0.5 ≤ x ∧ x ≤ comparison.xLevels.length - 0.5 ∧
      bottom < y ∧ y < top := by
  obtain ⟨group, hgroup, hplaces⟩ := exists_group_of_point h hshape hpoint
  obtain ⟨place, hplace, hleft, hright⟩ := exists_placeOf hdodge hnonneg hle h hgroup
  obtain ⟨first, middle, last, hfirst, hlast, hlow, hmean, hhigh, hends⟩ :=
    exists_extent (hestimated group hgroup)
  have hbottom := (hrange group hgroup).1 first hlow
  have htop := (hrange group hgroup).2 last hhigh
  rw [hplace, hmean, ofScientific_eq, real_sub, real_add] at hplaces
  have hx : ∃ x : ℝ, point.1 = real x ∧ -0.5 ≤ x ∧ x ≤ comparison.xLevels.length - 0.5 := by
    rcases hplaces with ⟨hx, -⟩ | ⟨-, -, hx | hx | hx⟩
    · exact ⟨place, hx, by linarith, by linarith⟩
    · exact ⟨place, hx, by linarith, by linarith⟩
    · exact ⟨place - 0.05, hx, by linarith, by linarith⟩
    · exact ⟨place + 0.05, hx, by linarith, by linarith⟩
  have hy : ∃ y : ℝ, point.2 = real y ∧ bottom < y ∧ y < top := by
    rcases hplaces with ⟨-, hy⟩ | ⟨hbounded, hy | hy, -⟩
    · exact ⟨middle, hy, by linarith, by linarith⟩
    · exact ⟨first, hy.trans (hends hbounded).1, by linarith, by linarith⟩
    · exact ⟨last, hy.trans (hends hbounded).2, by linarith, by linarith⟩
  obtain ⟨x, hx, hxs⟩ := hx
  obtain ⟨y, hy, hys⟩ := hy
  exact ⟨x, y, Prod.ext hx hy, hxs.1, hxs.2, hys.1, hys.2⟩

/-- The drawing of a comparison of real numbers shows it. -/
theorem draw_shows {d : Distribution Exact} {data : Dataset Exact} {x y : String}
    {hue : Option String} {options : Options Exact} {dodge : ℝ} (hd : HasCriticalValues d)
    (hrun : run d data x y hue options = .ok comparison) (hgroups : comparison.groups ≠ [])
    (hdodge : config.dodge = real dodge) (hnonneg : 0 ≤ dodge) (hle : dodge ≤ 0.9) :
    ∃ drawing, draw config true comparison = .ok drawing ∧ Shows config comparison drawing := by
  obtain ⟨prepared, yField, points, -, hsees, hhue, hcomparison⟩ := exists_points_of_run hrun
  have hreal : ∀ point ∈ points, ∃ r : ℝ, real r = point.y := by
    intro point hpoint
    obtain ⟨record, -, hsee⟩ := Success.exists_of_mem_forall₂ hsees hpoint
    obtain ⟨r, hr⟩ := isFinite_iff.mp hsee.value.2
    exact ⟨r, hr.symm⟩
  have hestimated : ∀ group ∈ comparison.groups, Estimated group := by
    intro group hgroup
    rw [hcomparison, ofColumns_eq] at hgroup
    exact estimated_of_mem hd hreal hgroup
  have hseries := inSeries hcomparison hhue hgroups
  obtain ⟨bottom, top, hyRange, hrange⟩ := exists_yRange hgroups hestimated
  refine ⟨instructions config comparison, draw_eq_ok hgroups, ?_, ?_, ?_, ?_, ?_, -0.5,
    comparison.xLevels.length - 0.5, bottom, top, ?_, rfl, rfl, ?_⟩
  · rw [← List.filter_congr fun group hgroup => isBounded_eq (hestimated group hgroup)]
    exact shapes_perm hseries
  · exact ⟨dodge, hdodge, fun group _ => placeOf_real hdodge group⟩
  · exact fun hue other => config.palette.color_eq_color_iff _ _
  · rw [hues_eq_hueKeys hcomparison hhue hgroups, hcomparison, ofColumns_eq]
    rfl
  · exact fun own hown => map_x_series hcomparison hhue hgroups hown
  · rw [axes_instructions, hyRange, ofNat_eq, ofScientific_eq, real_neg, real_sub]
  · intro shape hshape point hpoint
    exact point_inside hdodge hnonneg hle hseries hestimated hrange hshape hpoint

end PointPlot

/-! ## Two groups in two series -/

namespace Sample

open Exact

/-- The critical values for one degree of freedom, of which the distribution is that of Cauchy. -/
noncomputable def cauchy : Distribution Exact :=
  { Distribution.exactFisher with
    studentWithin
      | real p, _ => real (Real.tan (Real.pi * p / (2 : ℕ)))
      | _, _ => undefined }

theorem hasCriticalValues_cauchy : Comparison.HasCriticalValues cauchy := by
  intro n _
  refine ⟨Real.tan (Real.pi * 0.95 / (2 : ℕ)), ?_, rfl⟩
  have hpi := Real.pi_pos
  apply Real.tan_nonneg_of_nonneg_of_le_pi_div_two
  · positivity
  · push_cast
    linarith

/-- Two records of one hue and level, and one of another hue and level. -/
def trio : Dataset Exact :=
  ⟨[record "s" "u" 1, record "s" "u" 3, record "t" "v" 2]⟩

theorem hueLabels_trio :
    Comparison.hueLabels trio (some "b") true = .ok [some "u", some "u", some "v"] := by
  have hu : Text.withoutParentheses "u" = "u" := by decide +kernel
  have hv : Text.withoutParentheses "v" = "v" := by decide +kernel
  have hcolumn : trio.categoricalColumn "b" = .ok ["u", "u", "v"] := rfl
  rw [Comparison.hueLabels, hcolumn, Success.ok_bind]
  simp only [if_true, List.map_cons, List.map_nil, hu, hv]
  rfl

end Sample

namespace PointPlot

open Exact Comparison Sample

/-- The plot of the sample, with its two series drawn aside from each other, shows both groups. -/
theorem draw_shows_trio : ∃ comparison drawing,
    Comparison.run cauchy trio "a" "y" (some "b") ⟨false, none, .lowerIsBetter, true⟩ =
      .ok comparison ∧
    comparison.groups ≠ [] ∧ draw Config.standard true comparison = .ok drawing ∧
    Shows Config.standard comparison drawing := by
  have hvalues : trio.numericColumn "y" =
      .ok [real ((1 : ℤ) : ℝ), real ((3 : ℤ) : ℝ), real ((2 : ℤ) : ℝ)] := rfl
  have hxs : trio.categoricalColumn "a" = .ok ["s", "s", "t"] := rfl
  obtain ⟨comparison, hrun⟩ : ∃ comparison, Comparison.run cauchy trio "a" "y" (some "b")
      ⟨false, none, .lowerIsBetter, true⟩ = .ok comparison :=
    ⟨_, run_eq_ok_of_raw.mpr ⟨rfl, _, _, _, hvalues, hxs, hueLabels_trio, rfl⟩⟩
  have hgroups : comparison.groups ≠ [] := by
    obtain ⟨prepared, yField, points, hprepared, hsees, hhue, rfl⟩ := exists_points_of_run hrun
    cases hprepared
    cases hsees with
    | @cons _ point _ _ _ _ =>
        obtain ⟨group, hgroup, -⟩ :=
          ((partitions_ofColumns hhue).exists_group_iff point.x point.hue).mpr
            ⟨point, List.mem_cons_self, rfl, rfl⟩
        exact List.ne_nil_of_mem hgroup
  obtain ⟨drawing, hdraw, hshows⟩ :=
    draw_shows hasCriticalValues_cauchy hrun hgroups (rfl : Config.standard.dodge = real 0.2)
      (by norm_num) (by norm_num)
  exact ⟨comparison, drawing, hrun, hgroups, hdraw, hshows⟩

end PointPlot

end Significance
