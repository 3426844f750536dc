import CssWorkbench.Knowledge.Entry

/-!
# Known properties

The properties of the language with the keywords that are offered for their values. Sets of
keywords that several properties share have a name of their own.
-/

namespace CssWorkbench.Knowledge

/-- A property: its name and description, the keywords offered for its value, whether the value
may be a color, and whether its use is discouraged. -/
structure Property where
  name : String
  description : String
  values : List String
  color : Bool
  obsolete : Bool
deriving DecidableEq, Repr, Inhabited

/-- A property whose value is no color. -/
def plain (name description : String) (values : List String) : Property :=
  ⟨name, description, values, false, false⟩

/-- A property whose value may be a color. -/
def colored (name description : String) (values : List String) : Property :=
  ⟨name, description, values, true, false⟩

/-- A property that is no longer to be used. -/
def oldProperty (name description : String) (values : List String) : Property :=
  ⟨name, description, values, false, true⟩

/-- Where lines and tracks may be put. -/
def alignments : List String :=
  ["normal", "stretch", "center", "start", "end", "flex-start", "flex-end", "baseline",
    "space-between", "space-around", "space-evenly"]

/-- Where a single item may be put. -/
def selfAlignments : List String :=
  ["auto", "normal", "stretch", "center", "start", "end", "flex-start", "flex-end", "baseline"]

/-- The ways to draw a border. -/
def borderStyles : List String :=
  ["none", "hidden", "dotted", "dashed", "solid", "double", "groove", "ridge", "inset", "outset"]

/-- The named widths of a border. -/
def borderWidths : List String :=
  ["thin", "medium", "thick"]

/-- Whether a page or column breaks. -/
def breaks : List String :=
  ["auto", "avoid", "always", "all", "page", "column", "left", "right"]

/-- The boxes of an element. -/
def boxes : List String :=
  ["border-box", "padding-box", "content-box"]

/-- What becomes of content too large for its box. -/
def overflows : List String :=
  ["visible", "hidden", "clip", "scroll", "auto"]

/-- The named sizes. -/
def sizes : List String :=
  ["auto", "min-content", "max-content", "fit-content"]

/-- The named upper bounds of a size. -/
def maximalSizes : List String :=
  ["none", "min-content", "max-content", "fit-content"]

/-- The keyword that leaves the choice to the browser. -/
def auto : List String :=
  ["auto"]

/-- The keyword for nothing at all. -/
def nothing : List String :=
  ["none"]

/-- The keyword for the normal value. -/
def normal : List String :=
  ["normal"]

/-- What happens at the end of a scrolled area. -/
def overscrolls : List String :=
  ["auto", "contain", "none"]

/-- The ways to blend two layers. -/
def blends : List String :=
  ["normal", "multiply", "screen", "overlay", "darken", "lighten", "color-dodge", "color-burn",
    "hard-light", "soft-light", "difference", "exclusion", "hue", "saturation", "color",
    "luminosity"]

/-- The keywords of grid lines. -/
def gridLines : List String :=
  ["auto", "span"]

/-- Where a scrolled area snaps to an item. -/
def snapAlignments : List String :=
  ["none", "start", "end", "center"]

/-- Whether a page breaks. -/
def pageBreaks : List String :=
  ["auto", "always", "avoid", "left", "right"]

/-- The properties, in the order in which they are offered. -/
def properties : List Property := [
  colored "accent-color" "Sets the accent color for user-interface controls." auto,
  plain "align-content" "Aligns a flex or grid container's lines along the cross axis." alignments,
  plain "align-items" "Sets the default alignment of items along the cross axis." selfAlignments,
  plain "align-self" "Overrides the container's align-items value for this item." selfAlignments,
  plain "all" "Resets all properties except direction and unicode-bidi." [],
  plain "animation" "Shorthand for the animation-* properties." nothing,
  plain "animation-delay" "Time to wait before starting an animation." [],
  plain "animation-direction" "Whether an animation plays forwards, backwards, or alternates."
    ["normal", "reverse", "alternate", "alternate-reverse"],
  plain "animation-duration" "Time an animation takes to complete one cycle." [],
  plain "animation-fill-mode" "How styles apply before and after an animation runs."
    ["none", "forwards", "backwards", "both"],
  plain "animation-iteration-count" "Number of times an animation cycle plays." ["infinite"],
  plain "animation-name" "Names of the @keyframes applied to the element." nothing,
  plain "animation-play-state" "Whether an animation is running or paused." ["running", "paused"],
  plain "animation-timing-function" "Acceleration curve of an animation."
    ["ease", "ease-in", "ease-out", "ease-in-out", "linear", "step-start", "step-end"],
  plain "appearance" "Controls native platform styling of form controls."
    ["none", "auto", "menulist-button", "textfield"],
  plain "aspect-ratio" "Preferred aspect ratio of the box." auto,
  plain "backdrop-filter" "Graphical effects applied to the area behind an element." nothing,
  plain "backface-visibility" "Whether the back face of an element is visible when turned."
    ["visible", "hidden"],
  colored "background" "Shorthand for all background properties."
    ["none", "repeat", "no-repeat", "fixed", "scroll"],
  plain "background-attachment" "Whether the background scrolls with the element or viewport."
    ["scroll", "fixed", "local"],
  plain "background-blend-mode" "How background layers blend with each other." blends,
  plain "background-clip" "How far the background extends within the element."
    ["border-box", "padding-box", "content-box", "text"],
  colored "background-color" "Background color of an element." [],
  plain "background-image" "One or more background images." nothing,
  plain "background-origin" "Origin box for background positioning." boxes,
  plain "background-position" "Initial position of each background image."
    ["top", "right", "bottom", "left", "center"],
  plain "background-repeat" "How background images repeat."
    ["repeat", "repeat-x", "repeat-y", "no-repeat", "space", "round"],
  plain "background-size" "Size of the background images." ["auto", "cover", "contain"],
  plain "block-size" "Size of the element in the block direction." sizes,
  colored "border" "Shorthand for border width, style and color." borderStyles,
  colored "border-block" "Shorthand for the block-start and block-end borders." borderStyles,
  colored "border-block-end" "Shorthand for the block-end border." borderStyles,
  colored "border-block-start" "Shorthand for the block-start border." borderStyles,
  colored "border-bottom" "Shorthand for the bottom border." borderStyles,
  colored "border-bottom-color" "Color of the bottom border." [],
  plain "border-bottom-left-radius" "Rounding of the bottom-left corner." [],
  plain "border-bottom-right-radius" "Rounding of the bottom-right corner." [],
  plain "border-bottom-style" "Line style of the bottom border." borderStyles,
  plain "border-bottom-width" "Width of the bottom border." borderWidths,
  plain "border-collapse" "Whether table cell borders are shared or separate."
    ["collapse", "separate"],
  colored "border-color" "Color of all four borders." [],
  plain "border-image" "Shorthand for drawing an image as the border." nothing,
  colored "border-inline" "Shorthand for the inline-start and inline-end borders." borderStyles,
  colored "border-inline-end" "Shorthand for the inline-end border." borderStyles,
  colored "border-inline-start" "Shorthand for the inline-start border." borderStyles,
  colored "border-left" "Shorthand for the left border." borderStyles,
  colored "border-left-color" "Color of the left border." [],
  plain "border-left-style" "Line style of the left border." borderStyles,
  plain "border-left-width" "Width of the left border." borderWidths,
  plain "border-radius" "Rounding of all four corners." [],
  colored "border-right" "Shorthand for the right border." borderStyles,
  colored "border-right-color" "Color of the right border." [],
  plain "border-right-style" "Line style of the right border." borderStyles,
  plain "border-right-width" "Width of the right border." borderWidths,
  plain "border-spacing" "Distance between adjacent table cell borders." [],
  plain "border-style" "Line style of all four borders." borderStyles,
  colored "border-top" "Shorthand for the top border." borderStyles,
  colored "border-top-color" "Color of the top border." [],
  plain "border-top-left-radius" "Rounding of the top-left corner." [],
  plain "border-top-right-radius" "Rounding of the top-right corner." [],
  plain "border-top-style" "Line style of the top border." borderStyles,
  plain "border-top-width" "Width of the top border." borderWidths,
  plain "border-width" "Width of all four borders." borderWidths,
  plain "bottom" "Offset of a positioned element from the bottom." auto,
  plain "box-decoration-break" "How fragments of a box are decorated." ["slice", "clone"],
  colored "box-shadow" "Shadow effects around an element's frame." ["none", "inset"],
  plain "box-sizing" "Which box width and height apply to." ["content-box", "border-box"],
  plain "break-after" "Page, column or region break behavior after the box." breaks,
  plain "break-before" "Page, column or region break behavior before the box." breaks,
  plain "break-inside" "Page, column or region break behavior inside the box."
    ["auto", "avoid", "avoid-page", "avoid-column"],
  plain "caption-side" "Placement of a table caption." ["top", "bottom"],
  colored "caret-color" "Color of the text insertion caret." auto,
  plain "clear" "Whether an element moves below preceding floats."
    ["none", "left", "right", "both", "inline-start", "inline-end"],
  oldProperty "clip" "Clipping region of an absolutely positioned element. Use clip-path." auto,
  plain "clip-path" "Clipping region that sets which parts are shown."
    ["none", "border-box", "padding-box", "content-box", "margin-box"],
  colored "color" "Foreground color of text and decorations." [],
  plain "color-scheme" "Color schemes the element can be rendered in."
    ["normal", "light", "dark", "only"],
  plain "column-count" "Number of columns." auto,
  plain "column-fill" "How content is balanced across columns." ["auto", "balance"],
  plain "column-gap" "Gap between columns." normal,
  colored "column-rule" "Shorthand for the line drawn between columns." borderStyles,
  colored "column-rule-color" "Color of the line between columns." [],
  plain "column-rule-style" "Style of the line between columns." borderStyles,
  plain "column-rule-width" "Width of the line between columns." borderWidths,
  plain "column-span" "Whether an element spans all columns." ["none", "all"],
  plain "column-width" "Ideal column width." auto,
  plain "columns" "Shorthand for column-width and column-count." auto,
  plain "contain" "Limits layout, paint and style effects to the element subtree."
    ["none", "strict", "content", "size", "layout", "style", "paint"],
  plain "container" "Shorthand for container-name and container-type." nothing,
  plain "container-name" "Names the element as a query container." nothing,
  plain "container-type" "Type of containment used for container queries."
    ["normal", "size", "inline-size"],
  plain "content" "Generated content for ::before and ::after."
    ["normal", "none", "open-quote", "close-quote", "no-open-quote", "no-close-quote"],
  plain "content-visibility" "Whether the element renders its contents at all."
    ["visible", "hidden", "auto"],
  plain "counter-increment" "Increments named counters." nothing,
  plain "counter-reset" "Resets named counters." nothing,
  plain "counter-set" "Sets named counters to given values." nothing,
  plain "cursor" "Mouse cursor shown over the element."
    ["auto", "default", "none", "pointer", "text", "wait", "move", "not-allowed", "grab",
      "grabbing", "crosshair", "help", "progress"],
  plain "direction" "Direction of text and table columns." ["ltr", "rtl"],
  plain "display" "Display type of the element box."
    ["none", "block", "inline", "inline-block", "flex", "inline-flex", "grid", "inline-grid",
      "contents", "flow-root", "table", "table-row", "table-cell", "list-item"],
  plain "empty-cells" "Whether borders show around empty table cells." ["show", "hide"],
  colored "fill" "Paint used to fill the interior of an SVG shape." nothing,
  plain "filter" "Graphical effects such as blur or color shift." nothing,
  plain "flex" "Shorthand for flex-grow, flex-shrink and flex-basis." ["none", "auto"],
  plain "flex-basis" "Initial main size of a flex item." ["auto", "content"],
  plain "flex-direction" "Direction of the flex container's main axis."
    ["row", "row-reverse", "column", "column-reverse"],
  plain "flex-flow" "Shorthand for flex-direction and flex-wrap."
    ["row", "column", "wrap", "nowrap"],
  plain "flex-grow" "Growth factor of a flex item." [],
  plain "flex-shrink" "Shrink factor of a flex item." [],
  plain "flex-wrap" "Whether flex items wrap onto multiple lines."
    ["nowrap", "wrap", "wrap-reverse"],
  plain "float" "Places an element on the left or right of its container."
    ["none", "left", "right", "inline-start", "inline-end"],
  plain "font" "Shorthand for the font-* properties and line-height."
    ["caption", "icon", "menu", "message-box", "small-caption", "status-bar"],
  plain "font-display" "How a font face is displayed while it loads."
    ["auto", "block", "swap", "fallback", "optional"],
  plain "font-family" "Prioritized list of font family names."
    ["serif", "sans-serif", "monospace", "cursive", "fantasy", "system-ui"],
  plain "font-feature-settings" "Low-level control of OpenType features." normal,
  plain "font-kerning" "Use of font kerning information." ["auto", "normal", "none"],
  plain "font-size" "Size of the font."
    ["xx-small", "x-small", "small", "medium", "large", "x-large", "xx-large", "smaller",
      "larger"],
  plain "font-stretch" "Normal, condensed or expanded face of a font."
    ["normal", "condensed", "expanded", "semi-condensed", "semi-expanded"],
  plain "font-style" "Normal, italic or oblique face of a font." ["normal", "italic", "oblique"],
  plain "font-variant" "Shorthand for font-variant-* properties." ["normal", "small-caps"],
  plain "font-variant-numeric" "Glyphs used for numbers and fractions."
    ["normal", "tabular-nums", "lining-nums", "oldstyle-nums", "slashed-zero"],
  plain "font-variation-settings" "Low-level control of variable font axes." normal,
  plain "font-weight" "Weight or boldness of the font." ["normal", "bold", "bolder", "lighter"],
  plain "gap" "Gaps between rows and columns." normal,
  plain "grid" "Shorthand for all explicit and implicit grid properties." nothing,
  plain "grid-area" "Grid item size and location." gridLines,
  plain "grid-auto-columns" "Size of implicitly created grid columns." sizes,
  plain "grid-auto-flow" "How auto-placed items flow into the grid." ["row", "column", "dense"],
  plain "grid-auto-rows" "Size of implicitly created grid rows." sizes,
  plain "grid-column" "Grid item's column start and end." gridLines,
  plain "grid-column-end" "Grid item's column end." gridLines,
  oldProperty "grid-column-gap" "Gap between grid columns. Use column-gap." [],
  plain "grid-column-start" "Grid item's column start." gridLines,
  oldProperty "grid-gap" "Gaps between grid rows and columns. Use gap." [],
  plain "grid-row" "Grid item's row start and end." gridLines,
  plain "grid-row-end" "Grid item's row end." gridLines,
  oldProperty "grid-row-gap" "Gap between grid rows. Use row-gap." [],
  plain "grid-row-start" "Grid item's row start." gridLines,
  plain "grid-template" "Shorthand for grid columns, rows and areas." nothing,
  plain "grid-template-areas" "Named grid areas." nothing,
  plain "grid-template-columns" "Line names and track sizes of grid columns."
    ["none", "subgrid", "masonry"],
  plain "grid-template-rows" "Line names and track sizes of grid rows."
    ["none", "subgrid", "masonry"],
  plain "height" "Height of the element." sizes,
  plain "hyphens" "How words are hyphenated when text wraps." ["none", "manual", "auto"],
  oldProperty "ime-mode" "State of the input method editor for text fields."
    ["auto", "normal", "active", "inactive", "disabled"],
  plain "image-rendering" "Algorithm used to scale images."
    ["auto", "smooth", "high-quality", "crisp-edges", "pixelated"],
  plain "inline-size" "Size of the element in the inline direction." sizes,
  plain "inset" "Shorthand for top, right, bottom and left." auto,
  plain "inset-block" "Block-start and block-end offsets." auto,
  plain "inset-inline" "Inline-start and inline-end offsets." auto,
  plain "isolation" "Whether the element creates a new stacking context." ["auto", "isolate"],
  plain "justify-content" "Distribution of space along the main axis." alignments,
  plain "justify-items" "Default justification of items in their area." selfAlignments,
  plain "justify-self" "Justification of this item in its area." selfAlignments,
  plain "left" "Offset of a positioned element from the left." auto,
  plain "letter-spacing" "Spacing between text characters." normal,
  plain "line-break" "Line breaking rules for CJK text."
    ["auto", "loose", "normal", "strict", "anywhere"],
  plain "line-height" "Height of a line box." normal,
  plain "list-style" "Shorthand for the list-style-* properties."
    ["none", "disc", "circle", "square", "decimal", "inside", "outside"],
  plain "list-style-image" "Image used as the list item marker." nothing,
  plain "list-style-position" "Position of the marker relative to the list item."
    ["inside", "outside"],
  plain "list-style-type" "Marker of a list item."
    ["none", "disc", "circle", "square", "decimal", "lower-alpha", "upper-alpha", "lower-roman",
      "upper-roman"],
  plain "margin" "Margin on all four sides." auto,
  plain "margin-block" "Block-start and block-end margins." auto,
  plain "margin-block-end" "Block-end margin." auto,
  plain "margin-block-start" "Block-start margin." auto,
  plain "margin-bottom" "Bottom margin." auto,
  plain "margin-inline" "Inline-start and inline-end margins." auto,
  plain "margin-inline-end" "Inline-end margin." auto,
  plain "margin-inline-start" "Inline-start margin." auto,
  plain "margin-left" "Left margin." auto,
  plain "margin-right" "Right margin." auto,
  plain "margin-top" "Top margin." auto,
  plain "mask" "Shorthand for the mask-* properties." nothing,
  plain "mask-image" "Image used as a mask layer." nothing,
  plain "max-block-size" "Maximum size in the block direction." maximalSizes,
  plain "max-height" "Maximum height." maximalSizes,
  plain "max-inline-size" "Maximum size in the inline direction." maximalSizes,
  plain "max-width" "Maximum width." maximalSizes,
  plain "min-block-size" "Minimum size in the block direction." sizes,
  plain "min-height" "Minimum height." sizes,
  plain "min-inline-size" "Minimum size in the inline direction." sizes,
  plain "min-width" "Minimum width." sizes,
  plain "mix-blend-mode" "How the element blends with its parent and background." blends,
  plain "object-fit" "How replaced content fits its box."
    ["fill", "contain", "cover", "none", "scale-down"],
  plain "object-position" "Alignment of replaced content in its box."
    ["top", "right", "bottom", "left", "center"],
  plain "opacity" "Opacity of the element." [],
  plain "order" "Order of a flex or grid item." [],
  colored "outline" "Shorthand for outline width, style and color." borderStyles,
  colored "outline-color" "Color of the outline." ["invert"],
  plain "outline-offset" "Space between the outline and the border edge." [],
  plain "outline-style" "Style of the outline."
    ["auto", "none", "dotted", "dashed", "solid", "double", "groove", "ridge", "inset", "outset"],
  plain "outline-width" "Width of the outline." borderWidths,
  plain "overflow" "Behavior when content overflows the box." overflows,
  plain "overflow-anchor" "Opts out of scroll anchoring." ["auto", "none"],
  plain "overflow-wrap" "Whether long words may break to prevent overflow."
    ["normal", "break-word", "anywhere"],
  plain "overflow-x" "Horizontal overflow behavior." overflows,
  plain "overflow-y" "Vertical overflow behavior." overflows,
  plain "overscroll-behavior" "Behavior when a scroll boundary is reached." overscrolls,
  plain "overscroll-behavior-x" "Horizontal scroll boundary behavior." overscrolls,
  plain "overscroll-behavior-y" "Vertical scroll boundary behavior." overscrolls,
  plain "padding" "Padding on all four sides." [],
  plain "padding-block" "Block-start and block-end padding." [],
  plain "padding-block-end" "Block-end padding." [],
  plain "padding-block-start" "Block-start padding." [],
  plain "padding-bottom" "Bottom padding." [],
  plain "padding-inline" "Inline-start and inline-end padding." [],
  plain "padding-inline-end" "Inline-end padding." [],
  plain "padding-inline-start" "Inline-start padding." [],
  plain "padding-left" "Left padding." [],
  plain "padding-right" "Right padding." [],
  plain "padding-top" "Top padding." [],
  oldProperty "page-break-after" "Page break after the element. Use break-after." pageBreaks,
  oldProperty "page-break-before" "Page break before the element. Use break-before." pageBreaks,
  oldProperty "page-break-inside" "Page break inside the element. Use break-inside."
    ["auto", "avoid"],
  plain "perspective" "Distance between the z=0 plane and the viewer." nothing,
  plain "perspective-origin" "Position the viewer is looking from."
    ["top", "right", "bottom", "left", "center"],
  plain "place-content" "Shorthand for align-content and justify-content." alignments,
  plain "place-items" "Shorthand for align-items and justify-items." selfAlignments,
  plain "place-self" "Shorthand for align-self and justify-self." selfAlignments,
  plain "pointer-events" "Whether the element can be the target of pointer events."
    ["auto", "none"],
  plain "position" "Positioning scheme of the element."
    ["static", "relative", "absolute", "fixed", "sticky"],
  plain "quotes" "Quotation marks used by generated content." ["none", "auto"],
  plain "resize" "Whether and how the element is resizable."
    ["none", "both", "horizontal", "vertical", "block", "inline"],
  plain "right" "Offset of a positioned element from the right." auto,
  plain "rotate" "Rotation transform applied independently of transform." nothing,
  plain "row-gap" "Gap between rows." normal,
  plain "scale" "Scale transform applied independently of transform." nothing,
  plain "scroll-behavior" "Scrolling behavior for navigation and CSSOM APIs." ["auto", "smooth"],
  plain "scroll-margin" "Scroll snap area outsets." [],
  plain "scroll-padding" "Scroll snap port insets." auto,
  plain "scroll-snap-align" "Snap position of the box within the snap container." snapAlignments,
  oldProperty "scroll-snap-coordinate" "Snap coordinates of the element. Use scroll-snap-align."
    nothing,
  oldProperty "scroll-snap-destination"
    "Snap destination of the container. Use scroll-snap-align."
    [],
  plain "scroll-snap-stop" "Whether scrolling may pass over snap positions." ["normal", "always"],
  plain "scroll-snap-type" "How strictly snap points are enforced."
    ["none", "x", "y", "block", "inline", "both", "mandatory", "proximity"],
  colored "scrollbar-color" "Colors of the scrollbar thumb and track." ["auto"],
  plain "scrollbar-gutter" "Space reserved for the scrollbar." ["auto", "stable", "both-edges"],
  plain "scrollbar-width" "Thickness of scrollbars." ["auto", "thin", "none"],
  colored "stroke" "Paint used for the outline of an SVG shape." nothing,
  plain "stroke-width" "Width of the stroke on an SVG shape." [],
  plain "tab-size" "Width of tab characters." [],
  plain "table-layout" "Algorithm used to lay out table cells." ["auto", "fixed"],
  plain "text-align" "Horizontal alignment of inline content."
    ["left", "right", "center", "justify", "start", "end", "match-parent"],
  plain "text-align-last" "Alignment of the last line of a block."
    ["auto", "left", "right", "center", "justify", "start", "end"],
  colored "text-decoration" "Shorthand for text decoration lines, style and color."
    ["none", "underline", "overline", "line-through"],
  colored "text-decoration-color" "Color of text decorations." [],
  plain "text-decoration-line" "Kind of text decoration."
    ["none", "underline", "overline", "line-through"],
  plain "text-decoration-style" "Style of text decoration lines."
    ["solid", "double", "dotted", "dashed", "wavy"],
  plain "text-decoration-thickness" "Thickness of text decoration lines." ["auto", "from-font"],
  colored "text-emphasis" "Shorthand for emphasis marks." nothing,
  plain "text-indent" "Indentation of the first line of text." ["hanging", "each-line"],
  plain "text-overflow" "How hidden overflowing content is signaled." ["clip", "ellipsis"],
  plain "text-rendering" "Rendering engine optimization hints for text."
    ["auto", "optimizeSpeed", "optimizeLegibility", "geometricPrecision"],
  colored "text-shadow" "Shadows added to text." nothing,
  plain "text-transform" "Capitalization of text."
    ["none", "capitalize", "uppercase", "lowercase", "full-width"],
  plain "text-underline-offset" "Offset of the underline from its default position." auto,
  plain "text-wrap" "How text inside an element wraps."
    ["wrap", "nowrap", "balance", "pretty", "stable"],
  plain "top" "Offset of a positioned element from the top." auto,
  plain "touch-action" "How touch input may manipulate the element."
    ["auto", "none", "pan-x", "pan-y", "manipulation", "pinch-zoom"],
  plain "transform" "Transforms applied to the element." nothing,
  plain "transform-origin" "Origin of the element's transformations."
    ["top", "right", "bottom", "left", "center"],
  plain "transform-style" "Whether children are positioned in 3D space." ["flat", "preserve-3d"],
  plain "transition" "Shorthand for the transition-* properties." ["none", "all"],
  plain "transition-delay" "Time to wait before a transition starts." [],
  plain "transition-duration" "Time a transition takes." [],
  plain "transition-property" "Properties a transition applies to." ["none", "all"],
  plain "transition-timing-function" "Acceleration curve of a transition."
    ["ease", "ease-in", "ease-out", "ease-in-out", "linear", "step-start", "step-end"],
  plain "translate" "Translation transform applied independently of transform." nothing,
  plain "unicode-bidi" "Handling of bidirectional text."
    ["normal", "embed", "isolate", "bidi-override", "isolate-override", "plaintext"],
  plain "user-select" "Whether the user can select text."
    ["auto", "none", "text", "all", "contain"],
  plain "vertical-align" "Vertical alignment of an inline or table-cell box."
    ["baseline", "sub", "super", "text-top", "text-bottom", "middle", "top", "bottom"],
  plain "visibility" "Shows or hides an element without changing layout."
    ["visible", "hidden", "collapse"],
  plain "white-space" "How white space inside an element is handled."
    ["normal", "nowrap", "pre", "pre-wrap", "pre-line", "break-spaces"],
  plain "widows" "Minimum lines left at the top of a page or column." [],
  plain "width" "Width of the element." sizes,
  plain "will-change" "Hints to the browser about expected changes."
    ["auto", "scroll-position", "contents", "transform", "opacity"],
  plain "word-break" "Where lines may break inside words."
    ["normal", "break-all", "keep-all", "break-word"],
  plain "word-spacing" "Spacing between words." normal,
  plain "word-wrap" "Legacy name of overflow-wrap." ["normal", "break-word", "anywhere"],
  plain "writing-mode" "Whether lines are laid out horizontally or vertically."
    ["horizontal-tb", "vertical-rl", "vertical-lr"],
  plain "z-index" "Stacking order of a positioned element." auto,
  plain "zoom" "Magnification level of the element." ["normal", "reset"]]

/-- The property of a name, in any letter case. -/
def property? (name : String) : Option Property :=
  let name := Text.lower name
  properties.find? fun p => p.name = name

/-- The property of a name, by itself or behind a vendor's mark. -/
def anyProperty? (name : String) : Option Property :=
  (property? name).or (property? (unprefixed (Text.lower name)))

/-- Whether a property is known, by itself or behind a vendor's mark. -/
def knowsProperty (name : String) : Bool :=
  let name := Text.lower name
  let bare := unprefixed name
  properties.any fun p => p.name = name || p.name = bare

end CssWorkbench.Knowledge
