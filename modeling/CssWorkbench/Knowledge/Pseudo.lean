import CssWorkbench.Knowledge.Entry

/-!
# Known pseudo-classes, pseudo-elements and elements

The names that a selector is built from, without their colons.
-/

namespace CssWorkbench.Knowledge

/-- The pseudo-classes, in the order in which they are offered. -/
def pseudoClasses : List Entry := [
  entry "active" "Element being activated by the user.",
  entry "any-link" "Any link, visited or not.",
  entry "autofill" "Input whose value was autofilled by the browser.",
  entry "checked" "Checked radio, checkbox or selected option.",
  entry "default" "Default form element in a group.",
  entry "defined" "Element that has been defined.",
  entry "dir" "Element with the given text directionality.",
  entry "disabled" "Disabled form element.",
  entry "empty" "Element with no children.",
  entry "enabled" "Enabled form element.",
  entry "first" "First page of a printed document.",
  entry "first-child" "First element among its siblings.",
  entry "first-of-type" "First element of its type among its siblings.",
  entry "focus" "Element that has focus.",
  entry "focus-visible" "Focused element where the focus should be visible.",
  entry "focus-within" "Element that has or contains focus.",
  entry "fullscreen" "Element currently displayed in fullscreen mode.",
  entry "has" "Element with a descendant matching the relative selector.",
  entry "host" "Shadow host of the shadow DOM containing the CSS.",
  entry "hover" "Element the pointer is over.",
  entry "in-range" "Input whose value is inside its range limits.",
  entry "indeterminate" "Form element in an indeterminate state.",
  entry "invalid" "Form element whose contents fail validation.",
  entry "is" "Element matching any selector in the list.",
  entry "lang" "Element in the given language.",
  entry "last-child" "Last element among its siblings.",
  entry "last-of-type" "Last element of its type among its siblings.",
  entry "left" "Left-hand pages of a printed document.",
  entry "link" "Unvisited link.",
  entry "not" "Element not matching any selector in the list.",
  entry "nth-child" "Element by position among its siblings.",
  entry "nth-last-child" "Element by position among its siblings, counting from the end.",
  entry "nth-last-of-type"
    "Element by position among siblings of its type, counting from the end.",
  entry "nth-of-type" "Element by position among siblings of its type.",
  entry "only-child" "Element without siblings.",
  entry "only-of-type" "Element without siblings of the same type.",
  entry "optional" "Form element without the required attribute.",
  entry "out-of-range" "Input whose value is outside its range limits.",
  entry "placeholder-shown" "Input currently displaying placeholder text.",
  entry "read-only" "Element not editable by the user.",
  entry "read-write" "Element editable by the user.",
  entry "required" "Form element with the required attribute.",
  entry "right" "Right-hand pages of a printed document.",
  entry "root" "Root element of the document.",
  entry "scope" "Elements that are a reference point for selectors.",
  entry "target" "Element whose id matches the URL fragment.",
  entry "user-invalid" "Invalid form element after user interaction.",
  entry "valid" "Form element whose contents validate.",
  entry "visited" "Link that has been visited.",
  entry "where" "Like :is() but with zero specificity.",
  oldEntry "matches" "Old name of :is().",
  oldEntry "-moz-any" "Prefixed predecessor of :is()."]

/-- The pseudo-elements, in the order in which they are offered. -/
def pseudoElements : List Entry := [
  entry "after" "Generated last child of the element.",
  entry "backdrop" "Box behind a fullscreen or modal element.",
  entry "before" "Generated first child of the element.",
  entry "cue" "WebVTT cues in a media element.",
  entry "file-selector-button" "Button of a file input.",
  entry "first-letter" "First letter of the first line of a block.",
  entry "first-line" "First line of a block.",
  entry "grammar-error" "Text flagged as grammatically incorrect.",
  entry "highlight" "Custom highlight registered with the highlight registry.",
  entry "marker" "Marker box of a list item.",
  entry "part" "Element in a shadow tree with a matching part attribute.",
  entry "placeholder" "Placeholder text of an input.",
  entry "selection" "Portion of the document selected by the user.",
  entry "slotted" "Elements placed into a slot.",
  entry "spelling-error" "Text flagged as misspelled.",
  entry "target-text" "Text scrolled to by a text fragment."]

/-- The elements of a document that selectors commonly name. -/
def elements : List String := [
  "a", "abbr", "address", "article", "aside", "audio", "b", "blockquote", "body", "br", "button",
  "canvas", "caption", "code", "col", "dd", "details", "dialog", "div", "dl", "dt", "em",
  "fieldset", "figcaption", "figure", "footer", "form", "h1", "h2", "h3", "h4", "h5", "h6", "head",
  "header", "hr", "html", "i", "iframe", "img", "input", "label", "legend", "li", "main", "mark",
  "nav", "ol", "optgroup", "option", "p", "picture", "pre", "progress", "section", "select",
  "small", "source", "span", "strong", "sub", "summary", "sup", "svg", "table", "tbody", "td",
  "template", "textarea", "tfoot", "th", "thead", "time", "tr", "u", "ul", "video"]

/-- The pseudo-class of a name, in any letter case. -/
def pseudoClass? (name : String) : Option Entry :=
  Entry.find? pseudoClasses name

/-- The pseudo-element of a name, in any letter case. -/
def pseudoElement? (name : String) : Option Entry :=
  Entry.find? pseudoElements name

end CssWorkbench.Knowledge
