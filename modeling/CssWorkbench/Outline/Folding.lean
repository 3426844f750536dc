import CssWorkbench.Text.Position
import CssWorkbench.Tree.Walk

/-!
# Folding

What can be folded away: blocks from the line of `{` to the line before that of `}`, comments over
several lines, and the regions between comments that say `#region` and `#endregion`.
-/

namespace CssWorkbench

/-- What is folded besides blocks. -/
inductive FoldingKind
  | comment | region
deriving DecidableEq, Repr, Inhabited

/-- A run of lines that can be folded, from the first to the last. A block has no kind. The lines are
those of positions, and fit 32 bits where positions do. -/
structure FoldingRange where
  startLine : Nat
  stopLine : Nat
  kind : Option FoldingKind
deriving DecidableEq, Repr, Inhabited

namespace FoldingRange

/-- Ranges are listed by their first line, then by their last. -/
def le (a b : FoldingRange) : Bool :=
  a.startLine < b.startLine || (a.startLine = b.startLine && a.stopLine ≤ b.stopLine)

/-- A range over several lines, if there are several. -/
def lines? (startLine stopLine : Nat) (kind : Option FoldingKind) : Option FoldingRange :=
  if startLine < stopLine then some ⟨startLine, stopLine, kind⟩ else none

end FoldingRange

/-- The line of an offset. -/
def lineAt (source : String) (offset : Nat) : Nat :=
  (positionAt source offset).line

/-- The last character of a span, if it has one. -/
def Span.lastChar? (s : Span) (source : String) : Option Char :=
  (s.chars source.toList).getLast?

/-- The folding of a block. Of a block without its `}` everything folds. -/
def foldBlock? (source : String) (block : Span) : Option FoldingRange :=
  let stopLine :=
    if block.lastChar? source = some '\x7d' then lineAt source (block.stop - 1) - 1
    else lineAt source block.stop
  FoldingRange.lines? (lineAt source block.start) stopLine none

/-- A comment that bounds a region. -/
inductive RegionMark
  | start | stop
deriving DecidableEq, Repr, Inhabited

/-- The region mark that a comment is, if it is one. -/
def RegionMark.ofComment? : List Char → Option RegionMark
  | '/' :: '*' :: body =>
    let text := Text.trimStart body
    if "#endregion".toList.isPrefixOf text then some .stop
    else if "#region".toList.isPrefixOf text then some .start
    else none
  | _ => none

/-- The foldings found so far, newest first, and the lines of the regions still open, innermost
first. -/
structure FoldingDraft where
  ranges : List FoldingRange
  regions : List Nat
deriving DecidableEq, Repr, Inhabited

namespace FoldingDraft

/-- Add a range, if there is one. -/
def put (d : FoldingDraft) (range : Option FoldingRange) : FoldingDraft :=
  { d with ranges := range.toList ++ d.ranges }

/-- Note a comment. The end of a region that was not opened is passed over. -/
def addComment (source : String) (d : FoldingDraft) (span : Span) : FoldingDraft :=
  let line := lineAt source span.start
  match RegionMark.ofComment? (span.chars source.toList) with
  | some .start => { d with regions := line :: d.regions }
  | some .stop =>
    match d.regions with
    | opened :: regions => { d with regions := regions }.put (some ⟨opened, line, some .region⟩)
    | [] => d
  | none => d.put (FoldingRange.lines? line (lineAt source span.stop) (some .comment))

/-- Note a node. -/
def add (source : String) (d : FoldingDraft) : Node → FoldingDraft
  | .ruleset rule _ => d.put (foldBlock? source rule.block)
  | .atRule rule _ => d.put (rule.block.bind (foldBlock? source))
  | .declaration _ => d
  | .comment span => d.addComment source span

end FoldingDraft

/-- What can be folded in a stylesheet, in order. -/
def Stylesheet.foldings (sheet : Stylesheet) (source : String) : List FoldingRange :=
  (sheet.nodes.foldl (FoldingDraft.add source) ⟨[], []⟩).ranges.reverse.mergeSort FoldingRange.le

end CssWorkbench
