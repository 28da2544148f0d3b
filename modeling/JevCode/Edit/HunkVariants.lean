import JevCode.Edit.Diff

namespace JevCode.Edit

open JevCode.Text

inductive HunkVariantKind
  | trimCommon
  | dedupeShared
  | collapseRepeated
  | singleLine
  deriving DecidableEq

structure HunkVariant where
  oldLines : List String
  newLines : List String
  kind : HunkVariantKind
  deriving DecidableEq

def dropCommonFront : List String → List String → List String × List String
  | a :: as, b :: bs => if a = b then dropCommonFront as bs else (a :: as, b :: bs)
  | as, bs => (as, bs)

def trimCommonContext (oldLines newLines : List String) : Option HunkVariant :=
  let front := dropCommonFront oldLines newLines
  let back := dropCommonFront front.1.reverse front.2.reverse
  let trimmedOld := back.1.reverse
  let trimmedNew := back.2.reverse
  if trimmedOld.length = oldLines.length && trimmedNew.length = newLines.length then none
  else if trimmedOld = [] && trimmedNew = [] then none
  else some ⟨trimmedOld, trimmedNew, .trimCommon⟩

def sharedLines (oldLines newLines : List String) : List String := oldLines.filter (· ∈ newLines)

def collapseRuns (shared : List String) : List String → List String
  | [] => []
  | line :: lines =>
    if lines.head? = some line && line ∈ shared then collapseRuns shared lines else line ::
      collapseRuns shared lines

def collapsedVariant (collapse : List String → List String) (kind : HunkVariantKind)
    (oldLines newLines : List String) :
    Option HunkVariant :=
  let collapsedOld := collapse oldLines
  let collapsedNew := collapse newLines
  if collapsedOld.length = oldLines.length && collapsedNew.length = newLines.length then none
  else some ⟨collapsedOld, collapsedNew, kind⟩

def collapseConsecutiveSharedLines (oldLines newLines : List String) : Option HunkVariant :=
  collapsedVariant (collapseRuns (sharedLines oldLines newLines)) .dedupeShared oldLines newLines

/-- The largest size, from `size` down to 2, of a shared block at the front that is repeated right
behind itself. -/
def repeatedBlock (shared lines : List String) : Nat → Option Nat
  | 0 => none
  | size + 1 =>
    if size + 1 < 2 then none
    else if (lines.take (size + 1)).all (· ∈ shared) && (lines.drop (size + 1)).take (size + 1) =
      lines.take (size + 1) then
      some (size + 1)
    else repeatedBlock shared lines size

/-- The loop of `collapseRepeatedBlocks`: each round drops a repeated block or goes on behind a line.
There are at most as many rounds as lines. -/
def collapseBlocks (shared : List String) : Nat → List String → List String
  | 0, lines => lines
  | rounds + 1, lines =>
    match repeatedBlock shared lines (lines.length / 2) with
    | some size => collapseBlocks shared rounds (lines.take size ++ lines.drop (size * 2))
    | none =>
      match lines with
      | [] => []
      | line :: rest => line :: collapseBlocks shared rounds rest

def collapseRepeatedBlocks (oldLines newLines : List String) : Option HunkVariant :=
  collapsedVariant (fun lines => collapseBlocks (sharedLines oldLines newLines) lines.length lines)
    .collapseRepeated
    oldLines newLines

def reduceToSingleLineChange (oldLines newLines : List String) : Option HunkVariant :=
  if oldLines.length ≠ newLines.length then none
  else
    match (oldLines.zip newLines).filter fun p => p.1 ≠ p.2 with
    | [(oldLine, newLine)] => some ⟨[oldLine], [newLine], .singleLine⟩
    | _ => none

def distinctVariants (seen : List String) : List HunkVariant → List HunkVariant
  | [] => []
  | variant :: variants =>
    let key := joinLines variant.oldLines ++ "||" ++ joinLines variant.newLines
    if variant.oldLines = [] && variant.newLines = [] then distinctVariants seen variants
    else if key ∈ seen then distinctVariants seen variants
    else variant :: distinctVariants (key :: seen) variants

def buildFallbackVariants (hunk : DiffHunk) : List HunkVariant :=
  let base : HunkVariant := ⟨hunk.oldLines, hunk.newLines, .trimCommon⟩
  let trimmed := trimCommonContext base.oldLines base.newLines
  let afterTrim := trimmed.getD base
  let deduped := collapseConsecutiveSharedLines afterTrim.oldLines afterTrim.newLines
  let afterDedupe := deduped.getD afterTrim
  let collapsed := collapseRepeatedBlocks afterDedupe.oldLines afterDedupe.newLines
  let singleLine := reduceToSingleLineChange afterTrim.oldLines afterTrim.newLines
  distinctVariants [] (trimmed.toList ++ deduped.toList ++ collapsed.toList ++ singleLine.toList)

def filterFallbackVariants (variants : List HunkVariant) (allowAggressive : Bool) :
    List HunkVariant :=
  if allowAggressive then variants
  else variants.filter fun variant => variant.kind ≠ .collapseRepeated && variant.kind ≠ .singleLine

end JevCode.Edit
