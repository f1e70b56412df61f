import GoHomework.Lrucache.Basic
import GoHomework.Lrucache.Invariant
import GoHomework.Lrucache.Refinement
import GoHomework.Lrucache.Recency
import GoHomework.Lrucache.NegativeCapacity
import GoHomework.Otp.Cipher
import GoHomework.Memo.Memo4
import GoHomework.Utf8.Decode
import GoHomework.Varfmt.Sprintf
import GoHomework.Duration.Language
import GoHomework.Utf8.DecodeLast
import GoHomework.Utf8.Reverse
import GoHomework.Hogwarts.CourseList
import GoHomework.Hogwarts.Deterministic
import GoHomework.Hotelbusiness.ComputeLoad
import GoHomework.Speller.Spell
import GoHomework.Speller.Read
import GoHomework.Speller.ReadNested
import GoHomework.Spacecollapse.CollapseSpaces
import GoHomework.Memo.Memo1
import GoHomework.Memo.Mutex
import GoHomework.Memo.Memo2
import GoHomework.Memo.Memo3
import GoHomework.Bufio.ScanLines
import GoHomework.Dup.Counts
import GoHomework.Memo.Memo4Progress
