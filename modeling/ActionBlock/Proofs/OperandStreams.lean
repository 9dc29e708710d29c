import ActionBlock.Action.Scan
import ActionBlock.Proofs.FailedReads
import ActionBlock.Proofs.Push
import ActionBlock.Proofs.WholeBytes

/-!
# Operands from a stream and from bytes

Operands are read from a stream of their own with operations that have many faults: a width may be
negative or uneven, bytes may be too few for a number, a cursor may be before the start, and a value
that was read may be refused. On a stream of whole bytes only one of them occurs. Each operation
does there what a reader does with the bytes ahead: it gives the same value and takes the same
bytes, or else the bytes have ended.

This is shown for each operation of the stream, for the bits of a byte that several fields share,
and for the values of a push. It carries over to the operands of every layout.
-/

namespace ActionBlock

namespace Reader

variable {α β : Type} {r : Reader α} {g : α → Reader β} {bytes rest : Bytes}

theorem bind_of_some {a : α} (h : r bytes = some (a, rest)) :
  (r >>= g) bytes = g a rest
  := by
  change (r bytes).bind _ = _
  rw [h]
  rfl

theorem bind_of_none (h : r bytes = none) :
  (r >>= g) bytes = none
  := by
  change (r bytes).bind _ = _
  rw [h]
  rfl

theorem map_eq_none_iff {f : α → β} :
  (f <$> r) bytes = none ↔ r bytes = none
  := by
  change (r bytes).bind (fun p => some (f p.1, p.2)) = none ↔ _
  cases r bytes with
  | none => exact ⟨fun _ => rfl, fun _ => rfl⟩
  | some _ => exact ⟨nofun, nofun⟩

end Reader

namespace BitStream

variable {s : BitStream} {α β γ : Type}

/-! ### Streams of whole bytes -/

/-- A stream of whole bytes whose cursor is at the start of one of them, or at the end. -/
structure Whole (s : BitStream) : Prop extends s.Ready where
  cursor_dvd : 8 ∣ s.cursor
  length_dvd : 8 ∣ s.length

/-- A stream that is made of bytes is one of whole bytes. -/
theorem whole_ofBytes (bytes : Bytes) :
  (ofBytes bytes).Whole
  := ⟨ready_ofBytes bytes, dvd_zero 8, dvd_mul_right 8 _⟩

/-- A stream of whole bytes stays one within its pending bytes. -/
theorem Whole.skip (h : s.Whole) {k : Nat} (hk : k ≤ s.pending.length) :
  (s.skip k).Whole
  := by
  refine ⟨h.toReady.skip hk, ?_, h.length_dvd⟩
  exact Int.dvd_add h.cursor_dvd (Int.natCast_dvd_natCast.mpr (dvd_mul_right 8 k))

/-- A stream of whole bytes has eight bits for each pending byte. -/
theorem Whole.available_eq (h : s.Whole) :
  s.available = 8 * s.pending.length
  := by
  have hcursor := h.cursor_nonneg
  have hle := h.cursor_le
  have hcursor' := h.cursor_dvd
  have hlength := h.length_dvd
  rw [h.length_pending, available]
  omega

/-- The bits ahead are those of the bytes ahead. -/
theorem Whole.ahead_eq (h : s.Whole) :
  s.ahead = bitsOfBytes s.pending
  := by
  obtain ⟨bytes, rest, hbits, hrest⟩ := exists_bitsOfBytes_append s.ahead
  have hlength := congrArg List.length hbits
  have hcursor := h.cursor_nonneg
  have hle := h.cursor_le
  have hcursor' := h.cursor_dvd
  have hdvd := h.length_dvd
  rw [h.length_ahead, List.length_append, length_bitsOfBytes] at hlength
  obtain rfl : rest = [] := List.length_eq_zero_iff.mp (by omega)
  rw [pending, hbits, List.append_nil, bytesOfBits_bitsOfBytes]

/-! ### Operations and readers -/

/-- A run of an operation has the outcome of a reader on the bytes ahead: it gives the same value
and takes the same bytes, or both have found that the bytes end. -/
inductive Taken (s : BitStream) : Except Fault α × BitStream → Option (α × Bytes) → Prop where
  | ok (a : α) {k : Nat} (hk : k ≤ s.pending.length) :
    Taken s (.ok a, s.skip k) (some (a, s.pending.drop k))
  | short (t : BitStream) : Taken s (.error .pastEnd, t) none

namespace Taken

variable {run : Except Fault α × BitStream} {outcome : Option (α × Bytes)}

/-- An operation either runs past the end where the reader fails, or skips the bytes that the reader
takes. -/
theorem short_or_ok (h : Taken s run outcome) :
  (∃ t, run = (.error .pastEnd, t) ∧ outcome = none)
    ∨ ∃ a, ∃ k ≤ s.pending.length, run = (.ok a, s.skip k) ∧ outcome = some (a, s.pending.drop k)
  := by
  cases h with
  | ok a hk => exact .inr ⟨a, _, hk, rfl, rfl⟩
  | short t => exact .inl ⟨t, rfl, rfl⟩

/-- Nothing was taken. -/
theorem stay (a : α) :
  Taken s (.ok a, s) (some (a, s.pending))
  := by
  have h := Taken.ok a (Nat.zero_le s.pending.length)
  rwa [skip_zero, List.drop_zero] at h

/-- What is taken after bytes is taken with them. -/
theorem after {j : Nat} (hs : s.Ready) (hj : j ≤ s.pending.length)
    (h : Taken (s.skip j) run outcome) :
  Taken s run outcome
  := by
  cases h with
  | ok a hk =>
    rw [hs.pending_skip, List.length_drop] at hk
    rw [skip_skip, hs.pending_skip, List.drop_drop]
    apply Taken.ok
    omega
  | short t => apply Taken.short

end Taken

/-- An operation that does on a stream of whole bytes what a reader does with the bytes ahead. -/
def Follows (op : BitOp α) (r : Reader α) : Prop :=
  ∀ s : BitStream, s.Whole → Taken s (op.run s) (r s.pending)

namespace Follows

variable {op : BitOp α} {r : Reader α}

theorem pure (a : α) :
  Follows (Pure.pure a) (Pure.pure a)
  := by
  intro s _
  apply Taken.stay

/-- An operation after another follows a reader after another. The first may give its value in
another form, as an integer where the reader gives a natural number. -/
theorem bind_map {c : γ → α} {r : Reader γ} (h : Follows op (c <$> r)) {next : α → BitOp β}
    {g : γ → Reader β} (hnext : ∀ a, Follows (next (c a)) (g a)) :
  Follows (op >>= next) (r >>= g)
  := by
  intro s hs
  obtain ⟨t, hrun, hmap⟩ | ⟨_, k, hk, hrun, hmap⟩ := (h s hs).short_or_ok
  · rw [run_bind_of_error hrun, Reader.bind_of_none (Reader.map_eq_none_iff.mp hmap)]
    apply Taken.short
  · obtain ⟨a, hread, rfl⟩ := Reader.map_eq_some_iff.mp hmap
    rw [run_bind_of_ok hrun, Reader.bind_of_some hread, ← hs.pending_skip]
    exact (hnext a _ (hs.skip hk)).after hs.toReady hk

/-- Operations in sequence follow readers in sequence. -/
theorem bind (h : Follows op r) {next : α → BitOp β} {g : α → Reader β}
    (hnext : ∀ a, Follows (next a) (g a)) :
  Follows (op >>= next) (r >>= g)
  := by
  rw [← id_map r] at h
  exact h.bind_map hnext

theorem map (h : Follows op r) (f : α → β) :
  Follows (f <$> op) (f <$> r)
  := by
  rw [map_eq_pure_bind, map_eq_pure_bind]
  exact h.bind fun a => pure (f a)

/-- The value may be put into another form after the reader has put it into one. -/
theorem map_map {c : γ → α} {r : Reader γ} (h : Follows op (c <$> r)) (f : α → β) :
  Follows (f <$> op) ((fun a => f (c a)) <$> r)
  := by
  rw [map_eq_pure_bind, map_eq_pure_bind]
  exact h.bind_map fun a => pure (f (c a))

/-- An operation repeated follows the reader repeated. -/
theorem repeatOp (h : Follows op r) (n : Nat) (done : List α) :
  Follows (BitStream.repeatOp op n done) (Reader.timesFrom r n done)
  := by
  induction n generalizing done with
  | zero => exact pure done.reverse
  | succ n ih => exact h.bind fun a => ih (a :: done)

theorem times (h : Follows op r) (n : Nat) :
  Follows (BitStream.times n op) (Reader.times n r)
  := h.repeatOp n []

end Follows

/-! ### Bytes, numbers and texts -/

/-- An operation that reads the bits of some bytes follows a reader that takes the bytes. -/
theorem Reads.follows {op : BitOp α} {k : Nat} {f : List Bool → α} (h : Reads op (8 * k) f)
    {g : Bytes → α} (hg : ∀ front : Bytes, front.length = k → f (bitsOfBytes front) = g front) :
  Follows op (g <$> Reader.take k)
  := by
  intro s hs
  by_cases hk : k ≤ s.pending.length
  · have hfront : (s.pending.take k).length = k := by rwa [List.length_take, Nat.min_eq_left]
    have htake : Reader.take k s.pending = some (s.pending.take k, s.pending.drop k) :=
      Reader.take_eq_some_iff.mpr ⟨hfront, (List.take_append_drop _ _).symm⟩
    rw [h.run_skip hs.toReady hk, hs.ahead_eq, take_bitsOfBytes, hg _ hfront,
      Reader.map_eq_some_iff.mpr ⟨_, htake, rfl⟩]
    exact Taken.ok _ hk
  · rw [not_le] at hk
    have htake : Reader.take k s.pending = none := Bytes.splitExact_eq_none_iff.mpr hk
    rw [h.run_short hs.toReady hk, Reader.map_eq_none_iff.mpr htake]
    apply Taken.short

/-- A number of some bytes with the least significant one first, with a sign or without. -/
theorem follows_readInt (k : Nat) (signed : Bool) :
  Follows (readInt (8 * k : Nat) signed .little)
    ((fun n : Nat => if signed then Bytes.toSigned (8 * k) n else n) <$> Reader.number k)
  := by
  have hreads := reads_readInt (fun _ : ByteOrder.little = .little => dvd_mul_right 8 k) signed
  rw [Reader.number, ← comp_map]
  apply hreads.follows
  intro front hfront
  rw [intOfBits, magnitude, length_bitsOfBytes, bytesOfBits_bitsOfBytes, hfront]
  rfl

theorem follows_si16 :
  Follows (readInt 16 true .little) Reader.si16
  := follows_readInt 2 true

theorem follows_si32 :
  Follows (readInt 32 true .little) Reader.si32
  := follows_readInt 4 true

theorem follows_readUI16 :
  Follows readUI16 ((fun n : Nat => (n : Int)) <$> Reader.ui16)
  := follows_readInt 2 false

theorem Whole.ahead_of_pending (hs : s.Whole) {b : UInt8} {rest : Bytes}
    (h : s.pending = b :: rest) :
  s.ahead = bitsOfNumber 8 b.toNat ++ bitsOfBytes rest
  := by
  rw [hs.ahead_eq, h, bitsOfBytes_cons]

theorem pos_of_pending_eq {b : UInt8} {rest : Bytes} (h : s.pending = b :: rest) :
  1 ≤ s.pending.length
  := by
  rw [h]
  exact Nat.le_add_left _ _

theorem Whole.pending_skip_one (hs : s.Whole) {b : UInt8} {rest : Bytes}
    (h : s.pending = b :: rest) :
  (s.skip 1).pending = rest
  := by
  rw [hs.pending_skip, h, List.drop_one, List.tail_cons]

/-- The bits of an unsigned number, the first one the highest. -/
theorem reads_unsigned (n : Nat) :
  Reads (readInt n false .big) n (intOfBits false .big)
  := by
  apply reads_readInt
  nofun

/-- An unsigned byte is read off the pending ones. -/
theorem run_readUI8 (hs : s.Whole) {b : UInt8} {rest : Bytes} (h : s.pending = b :: rest) :
  readUI8.run s = (.ok (b.toNat : Int), s.skip 1)
  := by
  have hreads := reads_unsigned 8
  have htake : s.ahead.take 8 = bitsOfNumber 8 b.toNat := by
    rw [hs.ahead_of_pending h, List.take_left' (length_bitsOfNumber _ _)]
  apply (hreads.run_skip (k := 1) hs.toReady (pos_of_pending_eq h)).trans
  rw [htake, intOfBits, magnitude, numberOfBits_bitsOfNumber, Nat.mod_eq_of_lt b.toNat_lt]
  rfl

theorem follows_readUI8 :
  Follows readUI8 ((fun n : Nat => (n : Int)) <$> Reader.ui8)
  := by
  intro s hs
  cases hpending : s.pending with
  | nil =>
    have hreads := reads_unsigned 8
    have hshort : s.pending.length < 1 := by
      rw [hpending]
      exact Nat.one_pos
    have hrun : readUI8.run s = _ := hreads.run_short (k := 1) hs.toReady hshort
    rw [hrun]
    apply Taken.short
  | cons b rest =>
    have htaken := Taken.ok (b.toNat : Int) (pos_of_pending_eq hpending)
    rw [← hs.pending_skip, hs.pending_skip_one hpending] at htaken
    rw [run_readUI8 hs hpending]
    exact htaken

/-- A text is read up to its zero byte; the bytes end if there is none. -/
theorem follows_readText :
  Follows readText Reader.text
  := by
  intro s hs
  by_cases hzero : 0 ∈ s.pending
  · obtain ⟨k, hk⟩ := Option.isSome_iff_exists.mp (List.isSome_idxOf?.mpr hzero)
    obtain ⟨hlt, hfound, hbefore⟩ := List.idxOf?_eq_some_iff.mp hk
    have hspells : Reader.Spells (Utf8.decode (s.pending.take k)) (s.pending.take k ++ [0]) := by
      refine ⟨s.pending.take k, ?_, rfl, rfl⟩
      intro hmem
      obtain ⟨i, hi, hget⟩ := List.mem_iff_getElem.mp hmem
      rw [List.length_take] at hi
      rw [List.getElem_take] at hget
      exact hbefore i (by omega) hget
    have hsplit : s.pending = s.pending.take k ++ [0] ++ s.pending.drop (k + 1) := by
      rw [List.append_assoc, List.singleton_append, ← hfound, ← List.drop_eq_getElem_cons hlt,
        List.take_append_drop]
    rw [run_readText_of_idxOf? hs.toBacked hk,
      Reader.text_eq_some_iff.mpr ⟨_, hspells, hsplit⟩]
    exact Taken.ok _ hlt
  · have hnone : Reader.text s.pending = none := by
      cases htext : Reader.text s.pending with
      | none => rfl
      | some found =>
        obtain ⟨_, ⟨b, -, -, rfl⟩, hsplit⟩ := Reader.text_eq_some_iff.mp htext
        exact absurd (by rw [hsplit]; simp) hzero
    rw [run_readText_of_notMem hs.toBacked hzero, hnone]
    apply Taken.short

/-! ### Fields of bits -/

/-- The operation after some bits of a byte have been read follows a reader of the bytes after this
byte. -/
def Partway (b : UInt8) (i : Nat) (op : BitOp α) (r : Reader α) : Prop :=
  ∀ (s : BitStream) (rest : Bytes), s.Whole → s.pending = b :: rest →
    Taken (s.skip 1) (op.run (s.moved i)) (r rest)

namespace Partway

variable {b : UInt8} {i n : Nat} {op : BitOp α} {r : Reader α}

/-- The bits of a byte, from one of them on, stand ahead. -/
theorem take_ahead_moved (hs : s.Whole) {rest : Bytes} (h : s.pending = b :: rest)
    (hi : i + n ≤ 8) :
  (s.moved i).ahead.take n = bitsOfNumber n (b.toNat / 2 ^ (8 - i - n))
  := by
  have hlength : n ≤ ((bitsOfNumber 8 b.toNat).drop i).length := by
    rw [List.length_drop, length_bitsOfNumber]
    omega
  rw [hs.ahead_moved, hs.ahead_of_pending h, List.drop_append_of_le_length,
    List.take_append_of_le_length
    hlength, drop_bitsOfNumber, take_bitsOfNumber (by omega)]
  rw [length_bitsOfNumber]
  omega

/-- A field inside a byte is read as those bits of the byte. -/
theorem run_of_reads {f : List Bool → β} {op : BitOp β} (h : Reads op n f) (hs : s.Whole)
    {rest : Bytes} (hpending : s.pending = b :: rest) (hi : i + n ≤ 8) :
  op.run (s.moved i) = (.ok (f (bitsOfNumber n (b.toNat / 2 ^ (8 - i - n)))), s.moved (i + n : Nat))
  := by
  have havailable := hs.available_eq
  rw [hpending, List.length_cons, available] at havailable
  have hroom : (s.moved i).cursor + n ≤ (s.moved i).length := by
    simp only [BitStream.moved]
    omega
  rw [h.run_of_le (hs.toBacked.moved i) hroom, take_ahead_moved hs hpending hi, moved_moved,
    Nat.cast_add]

/-- A flag inside a byte is read as the bit at its place. -/
theorem flag {next : Bool → BitOp α} (hi : i < 8)
    (h : Partway b (i + 1) (next (b.toNat.testBit (7 - i))) r) :
  Partway b i (readBit >>= next) r
  := by
  intro s rest hs hpending
  have hbit : (b.toNat / 2 ^ (8 - i - 1)).testBit 0 = b.toNat.testBit (7 - i) := by
    rw [Nat.testBit_div_two_pow]
    congr 1
    omega
  have hvalue : decide (bitsOfNumber 1 (b.toNat / 2 ^ (8 - i - 1)) = [true])
      = b.toNat.testBit (7 - i) := by
    rw [← hbit, show bitsOfNumber 1 _ = [Nat.testBit _ 0] from rfl]
    cases (b.toNat / 2 ^ (8 - i - 1)).testBit 0 <;> rfl
  rw [run_bind_of_ok (run_of_reads reads_readBit hs hpending hi), hvalue]
  exact h s rest hs hpending

/-- A field inside a byte is read as the number in its bits. -/
theorem field {next : Int → BitOp α} (hi : i + n ≤ 8)
    (h : Partway b (i + n) (next (b.toNat / 2 ^ (8 - i - n) % 2 ^ n : Nat)) r) :
  Partway b i (readInt n false .big >>= next) r
  := by
  intro s rest hs hpending
  have hreads := reads_unsigned n
  have hvalue : intOfBits false .big (bitsOfNumber n (b.toNat / 2 ^ (8 - i - n)))
      = (b.toNat / 2 ^ (8 - i - n) % 2 ^ n : Nat) := by
    rw [intOfBits, magnitude, numberOfBits_bitsOfNumber]
    rfl
  rw [run_bind_of_ok (run_of_reads hreads hs hpending hi), hvalue]
  exact h s rest hs hpending

/-- After its last bit, a byte is taken as a whole. -/
theorem done (h : Follows op r) :
  Partway b 8 op r
  := by
  intro s rest hs hpending
  rw [← hs.pending_skip_one hpending]
  exact h _ (hs.skip (pos_of_pending_eq hpending))

end Partway

/-- Fields that share a byte are read after a reader that takes the byte. The first of them finds
out whether there is one. -/
theorem Reads.follows_shared {n : Nat} {op : BitOp β} {f : List Bool → β} (h : Reads op (n + 1) f)
    {next : β → BitOp α} {g : UInt8 → Reader α} (hnext : ∀ b, Partway b 0 (op >>= next) (g b)) :
  Follows (op >>= next) (Reader.byte >>= g)
  := by
  intro s hs
  cases hpending : s.pending with
  | nil =>
    have havailable := hs.available_eq
    rw [hpending, List.length_nil, available] at havailable
    rw [run_bind_of_error (h.run_of_lt hs.toBacked (by push_cast; omega)),
      Reader.bind_of_none rfl]
    apply Taken.short
  | cons b rest =>
    have htaken := hnext b s rest hs hpending
    rw [Nat.cast_zero, moved_zero] at htaken
    rw [Reader.bind_of_some (Reader.byte_eq_some_iff.mpr rfl)]
    exact htaken.after hs.toReady (pos_of_pending_eq hpending)

end BitStream

open BitStream

/-! ### The values of a push -/

namespace PushType

theorem swapped_eq_pure {raw : Bytes} (h : raw.length = 8) :
  (do let x ← (liftM (doubleOfWords raw) : BitOp Double); pure (Scalar.double x))
    = pure (Scalar.double ⟨UInt64.ofNat (Bytes.ofLittleEndian (swapWords raw))⟩)
  := by
  have hlength : (swapWords raw).length = 8 := by rw [length_swapWords, h]
  simp only [doubleOfWords, hlength]
  rfl

/-- A single with its least significant byte first is read from a stream as it is from bytes. -/
theorem follows_readSingle :
  Follows (readFloat (.int 32) (.text "<"))
    ((fun n => Double.ofSingle ⟨UInt32.ofNat n⟩) <$> Reader.number 4)
  := by
  have hwidth : isSingleWidth (.int 32) = .ok true := rfl
  have horder : byteOrder? (.text "<") = .ok (some .little) := rfl
  have hreads := reads_readFloat hwidth rfl horder
  rw [Reader.number, ← comp_map]
  apply Reads.follows (k := 4) hreads
  intro front _
  rw [floatOfBits, bytesOfBits_bitsOfBytes]
  rfl

/-- A value of a type is read from a stream as it is from bytes. -/
theorem follows_scan (t : PushType) :
  Follows t.scan t.read
  := by
  cases t with
  | string => exact follows_readText.map Scalar.text
  | float => exact follows_readSingle.map_map Scalar.double
  | null | undefined => exact Follows.pure _
  | register | constant8 => exact follows_readUI8.map_map Scalar.int
  | boolean =>
    have hfollows := follows_readUI8.map_map fun n =>
      if n = 0 ∨ n = 1 then Scalar.bool (n = 1) else Scalar.int n
    have hvalue : (fun n : Nat => if (n : Int) = 0 ∨ (n : Int) = 1 then
        Scalar.bool ((n : Int) = 1) else Scalar.int n)
        = fun n : Nat => if n < 2 then Scalar.bool (n = 1) else Scalar.int n := by
      funext n
      have hiff : ((n : Int) = 0 ∨ (n : Int) = 1) ↔ n < 2 := by omega
      rw [if_congr hiff rfl rfl]
      simp only [Nat.cast_eq_one]
    rw [hvalue] at hfollows
    exact hfollows
  | double =>
    have hreads : Reads (scan .double) (8 * 8) fun bits =>
        Scalar.double ⟨UInt64.ofNat (Bytes.ofLittleEndian (swapWords (bytesOfBits bits)))⟩ := by
      apply (reads_readBytes 8).bind
      intro bits hbits
      apply swapped_eq_pure
      rw [length_bytesOfBits, hbits]
    apply hreads.follows
    intro front _
    rw [bytesOfBits_bitsOfBytes]
  | integer => exact follows_si32.map Scalar.int
  | constant16 => exact follows_readUI16.map_map Scalar.int

end PushType

namespace PushValue

/-- A value that was read can be made, and is held as it was read. -/
theorem make_of_read {t : PushType} {bytes rest : Bytes} {v : Scalar}
    (h : t.read bytes = some (v, rest)) :
  make (.scalar v) t = .ok ⟨.scalar v, t⟩
  := by
  cases t with
  | float =>
    obtain ⟨n, -, -, rfl⟩ := PushType.read_float_eq_some_iff.mp h
    simp only [make, Value.toSingle, Scalar.toSingle, Scalar.toDouble, Except.bind, bind,
      Double.toSingle?_ofSingle, Except.map, Double.ofSingle_quieted]
  | _ => rfl

/-- Stepping back a byte undoes skipping one. -/
theorem run_seek_back (s : BitStream) :
  (seek (-8) .current).run (s.skip 1) = (.ok (), s)
  := by
  rw [seek, run_modify]
  simp [BitStream.skip, BitStream.moved]

/-- With more steps than there are bytes ahead, the values of a push are read from a stream as they
are from bytes. -/
theorem taken_scanFrom {steps more : Nat} {s : BitStream} (hs : s.Whole)
    (hsteps : s.pending.length < steps) (hmore : s.pending.length < more)
    (done : List PushValue) :
  Taken s ((scanFrom steps done).run s) (readFrom more done s.pending)
  := by
  -- Each value takes the byte of its type at least, so that the steps outlast the bytes.
  induction steps generalizing more s done with
  | zero => cases hsteps
  | succ steps ih =>
    obtain ⟨more, rfl⟩ : ∃ n, more = n + 1 := ⟨more - 1, by omega⟩
    have havailable := hs.available_eq
    rw [scanFrom, run_bind_of_ok run_get]
    cases hpending : s.pending with
    | nil =>
      rw [hpending, List.length_nil] at havailable
      rw [if_pos (by omega)]
      change Taken s _ (some (done.reverse, []))
      rw [← hpending]
      apply Taken.stay
    | cons b rest =>
      have hpos := pos_of_pending_eq hpending
      rw [if_neg (by omega), run_bind_of_ok (run_readUI8 hs hpending), Int.toNat_natCast]
      simp only [readFrom]
      cases PushType.ofNumber? b.toNat with
      | none =>
        dsimp only
        rw [run_bind_of_ok (run_seek_back s), ← hpending]
        apply Taken.stay
      | some t =>
        apply Taken.after hs.toReady hpos
        have hnext := hs.skip hpos
        have hscan := t.follows_scan _ hnext
        rw [hs.pending_skip_one hpending] at hscan
        obtain ⟨u, hrun, hread⟩ | ⟨v, k, hk, hrun, hread⟩ := hscan.short_or_ok
        · dsimp only
          rw [run_bind_of_error hrun, hread]
          apply Taken.short
        · dsimp only
          rw [run_bind_of_ok hrun, make_of_read hread, run_bind_of_ok (run_liftM _), hread,
            Option.bind_eq_bind, Option.bind_some, ← hnext.pending_skip]
          apply Taken.after hnext.toReady hk
          have hfewer : ((s.skip 1).skip k).pending.length < s.pending.length := by
            rw [hnext.pending_skip, hs.pending_skip, List.length_drop, List.length_drop]
            omega
          exact ih (hnext.skip hk) (by omega) (by omega) _

/-- Scanning the values of a push follows reading them. -/
theorem follows_scanAll :
  Follows scanAll readAll
  := by
  intro s hs
  have havailable := hs.available_eq
  rw [scanAll, run_bind_of_ok run_get]
  exact taken_scanFrom hs (by omega) (by omega) []

end PushValue

/-! ### Layouts -/

theorem follows_scanRegisterParam :
  Follows scanRegisterParam Reader.registerParam
  := follows_readUI8.bind_map fun _ => follows_readText.bind fun _ => .pure _

namespace Layout

/-- The request for a file has a byte of its own, with two flags before the reserved bits and the
method. -/
theorem follows_getUrl2 :
  Follows (scan .getUrl2) (read .getUrl2)
  := by
  apply reads_readBit.follows_shared
  intro b
  apply Partway.flag (by decide)
  apply Partway.flag (by decide)
  apply Partway.field (by decide)
  apply Partway.field (by decide)
  apply Partway.done
  have hmethod : ((b.toNat / 2 ^ (8 - (0 + 1 + 1 + 4) - 2) % 2 ^ 2 : Nat) : Int) = b.toNat % 4 := by
    simp
  have hreserved : ((b.toNat / 2 ^ (8 - (0 + 1 + 1) - 4) % 2 ^ 4 : Nat) : Int)
      = b.toNat / 4 % 16 := by
    simp
  rw [hmethod, hreserved]
  exact .pure _

/-- The byte of a jump to a frame says whether a bias follows. -/
theorem follows_gotoFrame2 :
  Follows (scan .gotoFrame2) (read .gotoFrame2)
  := by
  apply (reads_unsigned 6).follows_shared
  intro b
  apply Partway.field (by decide)
  apply Partway.flag (by decide)
  apply Partway.flag (by decide)
  apply Partway.done
  have hlt := b.toNat_lt
  have hreserved : ((b.toNat / 2 ^ (8 - 0 - 6) % 2 ^ 6 : Nat) : Int) = b.toNat / 4 := by
    omega
  rw [hreserved]
  simp only [Nat.reduceAdd, Nat.reduceSub]
  cases b.toNat.testBit 1 with
  | true => exact (follows_readUI16.map_map Value.int).bind fun _ => .pure _
  | false => exact (Follows.pure _).bind fun _ => .pure _

/-- The flags of a function with registers fill two bytes, with reserved bits before the last. -/
theorem follows_defineFunction2 :
  Follows (scan .defineFunction2) (read .defineFunction2)
  := by
  apply follows_readText.bind
  intro name
  apply follows_readUI16.bind_map
  intro n
  apply follows_readUI8.bind_map
  intro count
  apply reads_readBit.follows_shared
  intro first
  iterate 8 apply Partway.flag (by decide)
  apply Partway.done
  apply (reads_unsigned 7).follows_shared
  intro second
  apply Partway.field (by decide)
  apply Partway.flag (by decide)
  apply Partway.done
  have hlt := second.toNat_lt
  have hreserved : ((second.toNat / 2 ^ (8 - 0 - 7) % 2 ^ 7 : Nat) : Int) = second.toNat / 2 := by
    omega
  rw [hreserved]
  apply (follows_scanRegisterParam.times n).bind
  intro params
  exact follows_readUI16.bind_map fun _ => .pure _

/-- The byte of a `try` says whether the caught value goes to a register; its place follows the
sizes of the bodies. -/
theorem follows_tryCatch :
  Follows (scan .tryCatch) (read .tryCatch)
  := by
  have hsizes : BitStream.times 3 readUI16 = (do
      let tryBody ← readUI16
      let catchBody ← readUI16
      let finallyBody ← readUI16
      pure [tryBody, catchBody, finallyBody]) := rfl
  apply (reads_unsigned 5).follows_shared
  intro b
  apply Partway.field (by decide)
  iterate 3 apply Partway.flag (by decide)
  apply Partway.done
  have hlt := b.toNat_lt
  have hreserved : ((b.toNat / 2 ^ (8 - 0 - 5) % 2 ^ 5 : Nat) : Int) = b.toNat / 8 := by
    omega
  rw [hreserved, hsizes]
  simp only [Nat.reduceAdd, Nat.reduceSub, bind_assoc, pure_bind]
  apply follows_readUI16.bind_map
  intro tryBody
  apply follows_readUI16.bind_map
  intro catchBody
  apply follows_readUI16.bind_map
  intro finallyBody
  cases b.toNat.testBit 2 with
  | true => exact (follows_readUI8.map_map Value.int).bind fun _ => .pure _
  | false => exact (follows_readText.map Value.text).bind fun _ => .pure _

/-- Operands are read from a stream as they are from bytes, whatever their layout is. -/
theorem follows_scan (l : Layout) :
  Follows l.scan l.read
  := by
  cases l with
  | plain => exact .pure _
  | gotoFrame => exact follows_readUI16.bind_map fun _ => .pure _
  | getUrl => exact follows_readText.bind fun _ => follows_readText.bind fun _ => .pure _
  | storeRegister | strictMode | waitForFrame2 =>
    exact follows_readUI8.bind_map fun _ => .pure _
  | constantPool =>
    exact follows_readUI16.bind_map fun n => (follows_readText.times n).bind fun _ => .pure _
  | waitForFrame =>
    exact follows_readUI16.bind_map fun _ => follows_readUI8.bind_map fun _ => .pure _
  | string => exact follows_readText.bind fun _ => .pure _
  | getUrl2 => exact follows_getUrl2
  | gotoFrame2 => exact follows_gotoFrame2
  | push => exact PushValue.follows_scanAll.bind fun _ => .pure _
  | branch => exact follows_si16.bind fun _ => .pure _
  | defineFunction =>
    exact follows_readText.bind fun _ => follows_readUI16.bind_map fun n =>
      (follows_readText.times n).bind fun _ => follows_readUI16.bind_map fun _ => .pure _
  | defineFunction2 => exact follows_defineFunction2
  | withObject => exact follows_readUI16.bind_map fun _ => .pure _
  | tryCatch => exact follows_tryCatch

end Layout

/-- The bytes that are left after operands are all the bytes ahead. -/
theorem run_scanTrailing {s : BitStream} (hs : s.Whole) :
  ∃ t, scanTrailing.run s = (.ok s.pending, t)
  := by
  have hcursor := hs.cursor_dvd
  have havailable := hs.available_eq
  have hflush : skipFlush.run s = (.ok (), s) := by
    rw [skipFlush, run_modify]
    dsimp only
    rw [if_neg (by omega)]
  rw [scanTrailing, run_bind_of_ok hflush, run_bind_of_ok run_get]
  by_cases hempty : s.pending = []
  · rw [hempty, List.length_nil] at havailable
    rw [if_neg (by omega), hempty]
    exact ⟨s, rfl⟩
  · have hpos := List.length_pos_iff.mpr hempty
    have hcount : s.available / 8 = s.pending.length := by omega
    rw [if_pos (by omega), hcount, (reads_readBytes _).run_skip hs.toReady le_rfl,
      bytesOfBits_take]
    exact ⟨_, congrArg (fun bytes => (Except.ok bytes, _)) List.take_length⟩

end ActionBlock
