import Significance.Comparison

/-!
# Point plots

The drawing of a comparison: for every group its mean as a dot and its interval of confidence as a
bar with two caps, and for every hue a line through its means. The drawing is a list of
instructions in the order in which they are carried out.
-/

namespace Significance

/-- A colour by its red, green and blue parts, each below 256. -/
structure Color where
  red : Nat
  green : Nat
  blue : Nat
  deriving DecidableEq, Repr

def Color.white : Color := ⟨255, 255, 255⟩

/-- The lists of colours that series are drawn in. -/
inductive Palette
  | default
  | set2
  | colorBlind
  deriving DecidableEq, Repr

namespace Palette

/-- The first colour of a palette. -/
def first : Palette → Color
  | .default => ⟨31, 119, 180⟩
  | .set2 => ⟨102, 194, 165⟩
  | .colorBlind => ⟨0, 114, 178⟩

/-- The other colours of a palette. -/
def others : Palette → List Color
  | .default => [⟨255, 127, 14⟩, ⟨44, 160, 44⟩, ⟨214, 39, 40⟩]
  | .set2 =>
    [⟨252, 141, 98⟩, ⟨141, 160, 203⟩, ⟨231, 138, 195⟩, ⟨166, 216, 84⟩, ⟨255, 217, 47⟩,
      ⟨229, 196, 148⟩, ⟨179, 179, 179⟩]
  | .colorBlind =>
    [⟨230, 159, 0⟩, ⟨0, 158, 115⟩, ⟨204, 121, 167⟩, ⟨86, 180, 233⟩, ⟨213, 94, 0⟩,
      ⟨240, 228, 66⟩]

/-- The colour of the series at a position; the palette is gone through again and again. -/
def color (palette : Palette) (i : Nat) : Color :=
  let base := palette.first :: palette.others
  base.getD (i % base.length) palette.first

/-- The colours of the first `n` series. -/
def colors (palette : Palette) (n : Nat) : List Color :=
  (List.range n).map palette.color

end Palette

/-- The settings of a plot. A text that is absent is taken from the comparison. -/
structure PointPlot.Config (α : Type) where
  width : Nat
  height : Nat
  title : Option String
  xLabel : Option String
  yLabel : Option String
  fontSize : Nat
  palette : Palette
  /-- How far apart the series stand at one position, all together. -/
  dodge : α

namespace PointPlot

variable {α : Type}

/-- The settings where none are given. -/
def Config.standard [Scalar α] : Config α :=
  { width := 800, height := 500, title := none, xLabel := none, yLabel := none, fontSize := 16
    palette := .default, dodge := 0.2 }

/-- How a shape is drawn. -/
inductive Style
  | thin (color : Color)
  | filled (color : Color)
  | wide (color : Color) (width : Nat)
  deriving DecidableEq, Repr

/-- A line through some points, or a dot. -/
inductive Shape (α : Type)
  | path (style : Style) (points : List (α × α))
  | circle (style : Style) (centre : α × α) (radius : Nat)

/-- A step of the drawing. -/
inductive Instruction (α : Type)
  | image (width height : Nat)
  | fill (color : Color)
  | margin (size : Nat)
  | xLabelArea (size : Nat)
  | yLabelArea (size : Nat)
  | caption (title : String) (size : Nat)
  | axes (left right bottom top : α)
  | noVerticalGrid
  | tickCount (count : Nat)
  | xDescription (text : String)
  | yDescription (text : String)
  | labelSize (size : Nat)
  /-- The grid, with the label of a place on the `x` axis. -/
  | grid (label : α → String)
  | series (shapes : List (Shape α))
  /-- A line of the legend: its text and the colour of its symbol. -/
  | legendEntry (text : String) (color : Color)
  | legendAtUpperRight
  | legendBackground (color : Color) (opacity : String)
  | legend
  | present

variable [Scalar α]

/-- How near a place on the `x` axis must be to a level to get its label. -/
def tickTolerance : α := 1e-6

/-- The label of a place on the `x` axis: the level at that position, if one is there. -/
def tickLabel (levels : List String) (x : α) : String :=
  match levels.zipIdx.find? fun (_, i) => Scalar.abs (x - Scalar.ofNat i) < tickTolerance with
  | some (level, _) => level
  | none => ""

/-- The first value, or the second one where the first is not finite. -/
def finiteOr (x other : α) : α :=
  if Scalar.isFinite x then x else other

/-- The lower end of what a group takes up: of its interval, or its mean where there is none. -/
def low (group : GroupSummary α) : α :=
  finiteOr group.lower group.mean

/-- The upper end of what a group takes up. -/
def high (group : GroupSummary α) : α :=
  finiteOr group.upper group.mean

/-- The range of the `y` axis: all groups, and a tenth of their range on either side. -/
def yRange (groups : List (GroupSummary α)) : α × α :=
  let bottom := Scalar.least (groups.map low)
  let top := Scalar.greatest (groups.map high)
  let margin := Scalar.maximum ((top - bottom) * 0.1) 1e-9
  (bottom - margin, top + margin)

/-- How far the series at a position, one of `count`, is moved aside. -/
def offset (dodge : α) (count position : Nat) : α :=
  if 1 < count then
    dodge * (Scalar.ofNat position / Scalar.ofNat (count - 1) - 0.5)
  else 0.0

/-- A group with its place on the `x` axis. -/
abbrev Placed (α : Type) := α × GroupSummary α

/-- The groups of a series whose level is on the `x` axis, each at the position of its level. -/
def place (levels : List String) (offset : α) (groups : List (GroupSummary α)) :
    List (Placed α) :=
  groups.filterMap fun group =>
    (levels.idxOf? group.x).map fun i => (Scalar.ofNat i + offset, group)

/-- Half the length of a cap. -/
def cap : α := 0.05

/-- The bar and the two caps of an interval. -/
def whisker (color : Color) : Placed α → List (Shape α)
  | (x, group) =>
    [.path (.thin color) [(x, group.lower), (x, group.upper)],
      .path (.thin color) [(x - cap, group.lower), (x + cap, group.lower)],
      .path (.thin color) [(x - cap, group.upper), (x + cap, group.upper)]]

/-- Whether a group has an interval. -/
def hasInterval (placed : Placed α) : Bool :=
  Scalar.isFinite placed.2.lower && Scalar.isFinite placed.2.upper

/-- The place of a mean. -/
def meanPoint (placed : Placed α) : α × α :=
  (placed.1, placed.2.mean)

/-- The instructions for a series: its intervals, its line with an entry in the legend if it has a
name, and its dots. -/
def seriesInstructions (color : Color) (hue : Option String) (placed : List (Placed α)) :
    List (Instruction α) :=
  [.series ((placed.filter hasInterval).flatMap (whisker color)),
    .series [.path (.wide color 2) (placed.map meanPoint)]]
    ++ hue.toList.map (fun text => .legendEntry text color)
    ++ [.series (placed.map fun p => .circle (.filled color) (meanPoint p) 4)]

/-- The hues of a comparison, or the single absence of one. -/
def hues (comparison : Comparison α) : List (Option String) :=
  if comparison.hueLevels.isEmpty then [none] else comparison.hueLevels.map some

/-- The text at the `y` axis. -/
def yText (config : Config α) (comparison : Comparison α) : String :=
  config.yLabel.getD <|
    if comparison.normalized then comparison.yField ++ " (%)" else comparison.yField

/-- The instructions before the series. -/
def frame (config : Config α) (comparison : Comparison α) : List (Instruction α) :=
  let levels := comparison.xLevels
  let (bottom, top) := yRange comparison.groups
  [.image config.width config.height, .fill .white, .margin 10, .xLabelArea 40, .yLabelArea 70]
    ++ config.title.toList.map (fun title => .caption title config.fontSize)
    ++ [.axes (-0.5) (Scalar.ofNat levels.length - 0.5) bottom top, .noVerticalGrid,
      .tickCount (max levels.length 2),
      .xDescription (config.xLabel.getD comparison.xField),
      .yDescription (yText config comparison), .labelSize config.fontSize,
      .grid (tickLabel levels)]

/-- The instructions for all series. -/
def allSeries (config : Config α) (comparison : Comparison α) : List (Instruction α) :=
  let hues := hues comparison
  hues.zipIdx.flatMap fun (hue, i) =>
    let placed :=
      place comparison.xLevels (offset config.dodge hues.length i) (comparison.series hue)
    seriesInstructions (config.palette.color i) hue placed

/-- The instructions for the legend, which only several series have. -/
def legend (comparison : Comparison α) : List (Instruction α) :=
  if 1 < (hues comparison).length then
    [.legendAtUpperRight, .legendBackground .white "0.8", .legend]
  else []

/-- Draws a comparison into an image file, which may be writable or not. -/
def draw (config : Config α) (writable : Bool) (comparison : Comparison α) :
    Except (Error α) (List (Instruction α)) :=
  if comparison.groups.isEmpty then .error (.emptyData .groups)
  else if !writable then .error .drawing
  else
    .ok (frame config comparison ++ allSeries config comparison ++ legend comparison ++ [.present])

/-- Draws the means of a field over the levels of another. -/
def drawEstimates (d : Distribution α) (config : Config α) (writable : Bool) (data : Dataset α)
    (group target : String) : Except (Error α) (List (Instruction α)) := do
  let options : Comparison.Options α :=
    { normalize := false, reference := none, sense := .lowerIsBetter, cleanLabels := true }
  draw config writable (← Comparison.run d data group target none options)

end PointPlot

end Significance
