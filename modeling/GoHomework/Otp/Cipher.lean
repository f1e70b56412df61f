import Mathlib.Data.List.Basic

/-!
# The one-time-pad reader and writer of `otp/cipher.go`

`OTPWriter.Write` XORs each chunk with the next bytes of a key stream read from `prng` and
hands the result to the underlying writer; `OTPReader.Read` lets the underlying reader fill
the caller's buffer and XORs the bytes it got with the next bytes of the key stream.  Both
keep a scratch buffer that is reallocated only when it is too small (`refill`).

The environment is the one of the round-trip property: the prng yields an infinite key
stream `K` in full on every read, so the error branch of `Write` after `io.ReadFull` is never
taken; the underlying writer accepts every byte; the underlying reader delivers its bytes in
chunks of its own choosing (`sourceRead`).

The main result, `roundtrip`, takes any plaintext split into any writes and any sequence of
reads: the writer emits `cipher K 0 x`, the reader delivers a prefix of `x` (all of it once
the underlying reader is drained), each `Read` returning as many bytes as its underlying
`Read` (`readCounts`), and on both sides the key-stream offset is the number of bytes
processed.
-/

namespace Otp

/-! ## Bytes and the key stream -/

theorem xor_comm_byte (a b : UInt8) : a ^^^ b = b ^^^ a :=
  UInt8.eq_of_toBitVec_eq (BitVec.xor_comm _ _)

@[simp] theorem xor_xor_cancel (a b : UInt8) : a ^^^ b ^^^ b = a := by
  apply UInt8.eq_of_toBitVec_eq
  show a.toBitVec ^^^ b.toBitVec ^^^ b.toBitVec = a.toBitVec
  rw [BitVec.xor_assoc, BitVec.xor_self, BitVec.xor_zero]

/-- The key-stream bytes `K o, …, K (o + n - 1)`. -/
def keyBytes (K : Nat → UInt8) : Nat → Nat → List UInt8
  | _, 0 => []
  | o, n + 1 => K o :: keyBytes K (o + 1) n

@[simp] theorem length_keyBytes (K : Nat → UInt8) (o n : Nat) : (keyBytes K o n).length = n := by
  induction n generalizing o with
  | zero => rfl
  | succ n ih => simp [keyBytes, ih]

/-- Byte `i` of `x` XORed with key-stream byte `o + i`: the pad applied from offset `o`. -/
def cipher (K : Nat → UInt8) : Nat → List UInt8 → List UInt8
  | _, [] => []
  | o, b :: bs => (b ^^^ K o) :: cipher K (o + 1) bs

/-- The element-wise XOR of the loops of `Read` and `Write`. -/
def xorBytes (a b : List UInt8) : List UInt8 := List.zipWith (· ^^^ ·) a b

variable (K : Nat → UInt8)

@[simp] theorem length_cipher (o : Nat) (x : List UInt8) : (cipher K o x).length = x.length := by
  induction x generalizing o <;> simp_all [cipher]

theorem cipher_append (o : Nat) (x y : List UInt8) :
    cipher K o (x ++ y) = cipher K o x ++ cipher K (o + x.length) y := by
  induction x generalizing o with
  | nil => rfl
  | cons b x ih => simp [cipher, ih, Nat.add_right_comm, Nat.add_assoc]

theorem cipher_take (o n : Nat) (x : List UInt8) :
    (cipher K o x).take n = cipher K o (x.take n) := by
  induction x generalizing o n with
  | nil => simp [cipher]
  | cons b x ih => cases n <;> simp [cipher, ih]

theorem cipher_drop (o n : Nat) (x : List UInt8) :
    (cipher K o x).drop n = cipher K (o + n) (x.drop n) := by
  induction x generalizing o n with
  | nil => simp [cipher]
  | cons b x ih => cases n <;> simp [cipher, ih, Nat.add_right_comm, Nat.add_assoc]

/-- Applying the pad twice from the same offset gives the text back. -/
@[simp] theorem cipher_cipher (o : Nat) (x : List UInt8) : cipher K o (cipher K o x) = x := by
  induction x generalizing o <;> simp_all [cipher]

/-- XORing a text with the key bytes from offset `o` is the pad from `o`. -/
theorem xorBytes_keyBytes (o : Nat) (x : List UInt8) :
    xorBytes x (keyBytes K o x.length) = cipher K o x := by
  induction x generalizing o with
  | nil => rfl
  | cons b x ih => exact congrArg _ (ih (o + 1))

theorem xorBytes_keyBytes_of_length {o n : Nat} {x : List UInt8} (h : x.length = n) :
    xorBytes x (keyBytes K o n) = cipher K o x :=
  h ▸ xorBytes_keyBytes K o x

theorem keyBytes_xorBytes (o : Nat) (x : List UInt8) :
    xorBytes (keyBytes K o x.length) x = cipher K o x := by
  rw [xorBytes, List.zipWith_comm, ← xorBytes_keyBytes]
  exact congrArg (List.zipWith · _ _) (funext₂ fun a b => xor_comm_byte b a)

/-- Bytes past the end of the shorter side take no part in the XOR. -/
theorem xorBytes_append_right {a b : List UInt8} (h : a.length = b.length) (c : List UInt8) :
    xorBytes a (b ++ c) = xorBytes a b := by
  simpa [xorBytes] using List.zipWith_append (· ^^^ ·) a [] b c h

theorem xorBytes_append_left {a b : List UInt8} (h : a.length = b.length) (c : List UInt8) :
    xorBytes (a ++ c) b = xorBytes a b := by
  simpa [xorBytes] using List.zipWith_append (· ^^^ ·) a c b [] h

/-! ## The environment -/

/-- The prng: a reader of the key stream `K`, of which `pos` bytes have been read. -/
structure Prng where
  K : Nat → UInt8
  pos : Nat

/-- `io.ReadFull(prng, buf)` for a buffer of length `n`: the next `n` key bytes. -/
def Prng.readFull (g : Prng) (n : Nat) : List UInt8 × Prng :=
  (keyBytes g.K g.pos n, { g with pos := g.pos + n })

/-- The error `io.EOF` of the underlying reader. -/
inductive ReadErr where
  | eof
  deriving DecidableEq, Repr

/-- What one `r.Read(p)` of the underlying reader returns, and what it has left. -/
structure SourceRead where
  n : Nat
  p : List UInt8
  err : Option ReadErr
  rest : List UInt8

/-- One `r.Read(p)` of an underlying reader with bytes `rest` left: it copies `n` of them into
`p`, with `n` at most its own choice `want`, `len(p)` and what it has, and reports `io.EOF`
once it has nothing left. -/
def sourceRead (rest p : List UInt8) (want : Nat) : SourceRead :=
  let n := min want (min p.length rest.length)
  ⟨n, rest.take n ++ p.drop n, if rest = [] then some .eof else none, rest.drop n⟩

/-! ## `OTPReader` and `OTPWriter` -/

/-- The scratch-buffer refill of `Read` (lines 20–26) and `Write` (lines 45–50): a new array
of length `n` if the capacity is below `n`, then its first `n` bytes read from the prng. -/
def refill (buf : List UInt8) (prng : Prng) (n : Nat) : List UInt8 × Prng :=
  let arr := if buf.length < n then List.replicate n 0 else buf
  ((prng.readFull n).1 ++ arr.drop n, (prng.readFull n).2)

/-- The `OTPReader` struct; `r` is what the underlying reader has left to deliver and `key`
the backing array of the scratch buffer. -/
structure OTPReader where
  r : List UInt8
  prng : Prng
  key : List UInt8

/-- `Read(p)`, with `want` the underlying reader's choice of chunk: the count, the buffer
after the call, and the error of the underlying reader. -/
def OTPReader.read (o : OTPReader) (p : List UInt8) (want : Nat) :
    (Nat × List UInt8 × Option ReadErr) × OTPReader :=
  let s := sourceRead o.r p want
  if s.n = 0 then ((s.n, s.p, s.err), { o with r := s.rest })
  else
    let (key, prng) := refill o.key o.prng s.n
    ((s.n, xorBytes (s.p.take s.n) key ++ s.p.drop s.n, s.err), ⟨s.rest, prng, key⟩)

/-- The `OTPWriter` struct; `w` is every byte the underlying writer has accepted and
`buffer` the backing array of the scratch buffer. -/
structure OTPWriter where
  w : List UInt8
  prng : Prng
  buffer : List UInt8

/-- `Write(p)`: the count written (the error is always nil here) and the writer after. -/
def OTPWriter.write (o : OTPWriter) (p : List UInt8) : Nat × OTPWriter :=
  if p = [] then (0, o)
  else
    let (buf, prng) := refill o.buffer o.prng p.length
    let out := xorBytes buf p
    (p.length, ⟨o.w ++ out, prng, out ++ buf.drop p.length⟩)

/-- `NewReader(r, prng)`: a 1024-byte key buffer. -/
def newReader (r : List UInt8) (prng : Prng) : OTPReader := ⟨r, prng, List.replicate 1024 0⟩

/-- `NewWriter(w, prng)`: no buffer yet. -/
def newWriter (w : List UInt8) (prng : Prng) : OTPWriter := ⟨w, prng, []⟩

/-- A sequence of `Write` calls. -/
def OTPWriter.writeAll (o : OTPWriter) : List (List UInt8) → OTPWriter
  | [] => o
  | p :: ps => (o.write p).2.writeAll ps

/-- A sequence of `Read` calls, each with its buffer and the underlying reader's chunk
choice: the first `n` bytes of each call's buffer, and the reader after. -/
def OTPReader.readAll (o : OTPReader) : List (List UInt8 × Nat) → List (List UInt8) × OTPReader
  | [] => ([], o)
  | (p, want) :: rs =>
    let res := o.read p want
    let rest := res.2.readAll rs
    (res.1.2.1.take res.1.1 :: rest.1, rest.2)

/-! ## One call on each side -/

/-- The refilled buffer starts with the next `n` key bytes. -/
theorem refill_eq (buf : List UInt8) (prng : Prng) (n : Nat) :
    ∃ more, refill buf prng n = (keyBytes prng.K prng.pos n ++ more, ⟨prng.K, prng.pos + n⟩) :=
  ⟨_, rfl⟩

/-- One `Write(p)` hands `p` under the pad from the writer's offset to the underlying writer
and moves the offset by `len(p)`. -/
theorem OTPWriter.write_spec (o : OTPWriter) (p : List UInt8) :
    (o.write p).2.w = o.w ++ cipher o.prng.K o.prng.pos p ∧
      (o.write p).2.prng = ⟨o.prng.K, o.prng.pos + p.length⟩ := by
  unfold OTPWriter.write
  split
  · subst p
    exact ⟨by simp [cipher], rfl⟩
  · obtain ⟨more, hr⟩ := refill_eq o.buffer o.prng p.length
    rw [hr]
    refine ⟨?_, rfl⟩
    dsimp only
    rw [xorBytes_append_left (length_keyBytes _ _ _), keyBytes_xorBytes]

/-- One `Read(p)`: the underlying reader's chunk `n`, the first `n` bytes of the buffer are
that chunk under the pad from the reader's offset, and the offset moves by `n`. -/
theorem OTPReader.read_spec (o : OTPReader) (p : List UInt8) (want : Nat) :
    (o.read p want).1.1 = min want (min p.length o.r.length) ∧
      (o.read p want).1.2.1.take (min want (min p.length o.r.length)) =
        cipher o.prng.K o.prng.pos (o.r.take (min want (min p.length o.r.length))) ∧
      (o.read p want).2.r = o.r.drop (min want (min p.length o.r.length)) ∧
      (o.read p want).2.prng = ⟨o.prng.K, o.prng.pos + min want (min p.length o.r.length)⟩ := by
  unfold OTPReader.read
  simp only [sourceRead]
  have hlen : min want (min p.length o.r.length) ≤ o.r.length := by omega
  have hle : min want (min p.length o.r.length) ≤ p.length := by omega
  generalize min want (min p.length o.r.length) = n at hlen hle ⊢
  split
  · rename_i h0
    simp [h0, cipher]
  · obtain ⟨more, hr⟩ := refill_eq o.key o.prng n
    rw [hr]
    refine ⟨rfl, ?_, rfl, rfl⟩
    have hn : (o.r.take n).length = n := by simp only [List.length_take]; omega
    have htake : (o.r.take n ++ p.drop n).take n = o.r.take n := List.take_left' hn
    dsimp only
    rw [htake, xorBytes_append_right (by rw [hn, length_keyBytes]),
      xorBytes_keyBytes_of_length _ hn]
    exact List.take_left' (by simp [xorBytes]; omega)

/-! ## Whole runs -/

/-- A run of writes puts the concatenated chunks under the pad from the writer's offset, and
moves the offset by their total length. -/
theorem OTPWriter.writeAll_spec (ps : List (List UInt8)) : ∀ o : OTPWriter,
    (o.writeAll ps).w = o.w ++ cipher o.prng.K o.prng.pos ps.flatten ∧
      (o.writeAll ps).prng = ⟨o.prng.K, o.prng.pos + ps.flatten.length⟩ := by
  induction ps with
  | nil => exact fun o => ⟨by simp [writeAll, cipher], rfl⟩
  | cons p ps ih =>
    intro o
    obtain ⟨hw, hp⟩ := o.write_spec p
    obtain ⟨hw', hp'⟩ := ih (o.write p).2
    rw [writeAll, hw', hp', hw, hp, List.flatten_cons, cipher_append, List.append_assoc,
      List.length_append, Nat.add_assoc]
    exact ⟨rfl, rfl⟩

/-- A run of reads on a reader whose underlying bytes are `y` under the pad from its offset
delivers a prefix of `y`, moves the offset by its length, and leaves the rest of `y` under
the pad. -/
theorem OTPReader.readAll_spec (rs : List (List UInt8 × Nat)) : ∀ (o : OTPReader) (y : List UInt8),
    o.r = cipher o.prng.K o.prng.pos y →
    (o.readAll rs).1.flatten = y.take (o.readAll rs).1.flatten.length ∧
      (o.readAll rs).2.prng = ⟨o.prng.K, o.prng.pos + (o.readAll rs).1.flatten.length⟩ ∧
      (o.readAll rs).2.r =
        cipher o.prng.K (o.readAll rs).2.prng.pos (y.drop (o.readAll rs).1.flatten.length) := by
  induction rs with
  | nil => exact fun o y hr => ⟨rfl, rfl, hr⟩
  | cons r rs ih =>
    intro o y hr
    obtain ⟨p, want⟩ := r
    obtain ⟨hn, hbuf, hrest, hprng⟩ := o.read_spec p want
    have hle : min want (min p.length o.r.length) ≤ y.length := by
      rw [← length_cipher o.prng.K o.prng.pos y, ← hr]
      omega
    generalize min want (min p.length o.r.length) = n at hn hbuf hrest hprng hle
    rw [hr, cipher_take, cipher_cipher] at hbuf
    rw [hr, cipher_drop] at hrest
    obtain ⟨h1, h2, h3⟩ := ih (o.read p want).2 (y.drop n) (by rw [hrest, hprng])
    rw [hprng] at h2 h3
    simp only [OTPReader.readAll, List.flatten_cons, hn, hbuf]
    generalize ((o.read p want).2.readAll rs).1.flatten = R at h1 h2 h3 ⊢
    have hlen : (y.take n ++ R).length = n + R.length := by
      rw [List.length_append, List.length_take, Nat.min_eq_left hle]
    rw [hlen, List.take_add, ← h1, h3, h2, List.drop_drop, Nat.add_assoc]
    exact ⟨rfl, rfl, rfl⟩

/-- How many bytes each `Read` of a sequence returns when the underlying reader has `left`
bytes: `min(want, len(p), left)`, the count of its underlying `Read`. -/
def readCounts : Nat → List (List UInt8 × Nat) → List Nat
  | _, [] => []
  | left, (p, want) :: rs =>
    min want (min p.length left) :: readCounts (left - min want (min p.length left)) rs

/-- Each `Read` of a run returns what its underlying `Read` returned. -/
theorem OTPReader.readAll_counts (rs : List (List UInt8 × Nat)) : ∀ o : OTPReader,
    (o.readAll rs).1.map List.length = readCounts o.r.length rs := by
  induction rs with
  | nil => exact fun _ => rfl
  | cons r rs ih =>
    intro o
    obtain ⟨p, want⟩ := r
    obtain ⟨hn, hbuf, hrest, -⟩ := o.read_spec p want
    have hlen : (cipher o.prng.K o.prng.pos
        (o.r.take (min want (min p.length o.r.length)))).length =
          min want (min p.length o.r.length) := by
      rw [length_cipher, List.length_take]
      omega
    simp only [OTPReader.readAll, List.map_cons, hn, hbuf, hlen, ih, hrest, List.length_drop,
      readCounts]

/-- The writer after `Write` calls with `chunks` on `NewWriter(w, prng)`, where `w` has
received nothing yet and `prng` yields `K` from its start. -/
def writeThrough (K : Nat → UInt8) (chunks : List (List UInt8)) : OTPWriter :=
  (newWriter [] ⟨K, 0⟩).writeAll chunks

/-- What `Read` calls on `NewReader(r, prng)` deliver, and the reader after them, where `r`
holds the bytes `w` and `prng` yields `K` from its start. -/
def readBack (K : Nat → UInt8) (w : List UInt8) (reads : List (List UInt8 × Nat)) :
    List (List UInt8) × OTPReader :=
  (newReader w ⟨K, 0⟩).readAll reads

/-- **Round trip through the pad.**  For every key stream `K`, every plaintext split into any
chunks written through `NewWriter`, and every sequence of reads through `NewReader` (same key
stream) whose underlying reader holds what the underlying writer received and delivers it in
chunks of its own choosing: the writer emits `x` XOR `K[0:|x|]`, the reader delivers a prefix
of `x`, each `Read` as many bytes as its underlying `Read`, all of `x` once its underlying
reader is drained, and on each side the key-stream offset is the number of bytes
processed. -/
theorem roundtrip (K : Nat → UInt8) (chunks : List (List UInt8))
    (reads : List (List UInt8 × Nat)) :
    (writeThrough K chunks).w = xorBytes chunks.flatten (keyBytes K 0 chunks.flatten.length) ∧
      (writeThrough K chunks).prng.pos = chunks.flatten.length ∧
      (readBack K (writeThrough K chunks).w reads).1.flatten <+: chunks.flatten ∧
      (readBack K (writeThrough K chunks).w reads).1.map List.length =
        readCounts chunks.flatten.length reads ∧
      (readBack K (writeThrough K chunks).w reads).2.prng.pos =
        (readBack K (writeThrough K chunks).w reads).1.flatten.length ∧
      ((readBack K (writeThrough K chunks).w reads).2.r = [] →
        (readBack K (writeThrough K chunks).w reads).1.flatten = chunks.flatten) := by
  have hw : (writeThrough K chunks).w = cipher K 0 chunks.flatten :=
    (OTPWriter.writeAll_spec chunks (newWriter [] ⟨K, 0⟩)).1
  have hp : (writeThrough K chunks).prng.pos = 0 + chunks.flatten.length :=
    congrArg Prng.pos (OTPWriter.writeAll_spec chunks (newWriter [] ⟨K, 0⟩)).2
  have hrd : ∀ rd, rd = readBack K (writeThrough K chunks).w reads →
      rd.1.flatten = chunks.flatten.take rd.1.flatten.length ∧
        rd.2.prng = ⟨K, 0 + rd.1.flatten.length⟩ ∧
        rd.2.r = cipher K rd.2.prng.pos (chunks.flatten.drop rd.1.flatten.length) := by
    rintro _ rfl
    exact OTPReader.readAll_spec reads (newReader (writeThrough K chunks).w ⟨K, 0⟩) _ hw
  have hcounts : (readBack K (writeThrough K chunks).w reads).1.map List.length =
      readCounts chunks.flatten.length reads := by
    rw [readBack, OTPReader.readAll_counts, newReader, hw, length_cipher]
  generalize readBack K (writeThrough K chunks).w reads = rd at hrd hcounts ⊢
  obtain ⟨hd, hq, hr⟩ := hrd rd rfl
  refine ⟨hw.trans (xorBytes_keyBytes K 0 _).symm, hp.trans (Nat.zero_add _), ?_, hcounts,
    (congrArg Prng.pos hq).trans (Nat.zero_add _), fun hdr => ?_⟩
  · rw [hd]
    exact List.take_prefix _ _
  · have hnil : (chunks.flatten.drop rd.1.flatten.length).length = 0 := by
      rw [← length_cipher K rd.2.prng.pos, ← hr, hdr]
      rfl
    rw [hd, List.take_of_length_le (by rw [List.length_drop] at hnil; omega)]

end Otp
