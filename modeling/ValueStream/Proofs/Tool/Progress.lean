import Mathlib.Order.Bounds.Basic
import ValueStream.Proofs.Stream.Ahead
import ValueStream.Proofs.Tool.Line

/-!
The decoding tool on any bytes.

Decoding that never looks at the end of its input is a sequence of readers, one
before every record (`readerAt`), and the tool shows its rows up to the first that
begins at the end or behind it (`decode_eq`). Each column moves the reader on, so
there is such a row and there are not many before it (`cursor_readerAt`). What
stands before the place at which decoding begins is never looked at: without it
the same rows come out, only nearer to the beginning (`decode_extract`). All of
it is seen in the lines that are printed (`dump_progresses`).
-/

namespace ValueStream.Tool.Dump

open Bits Trace

section Endless

variable {ρ : Type} [IntReader ρ]

/-- The reader before record `index` of decoding without end. -/
def readerAt (schema : Schema) (r : ρ) : (index : Nat) → ρ
  | 0 => r
  | index + 1 => (schema.read (readerAt schema r index)).2

/-- The byte in which record `index` of decoding without end begins. -/
def startAt (schema : Schema) (r : ρ) (index : Nat) : Nat :=
  IntReader.position (readerAt schema r index)

/-- Row `i` of decoding without end, the rows numbered from `first` on. -/
def rowAt (schema : Schema) (first : Nat) (r : ρ) (i : Nat) : Row :=
  ⟨first + i, startAt schema r i, (schema.read (readerAt schema r i)).1⟩

theorem readerAt_read (schema : Schema) (r : ρ) (i : Nat) :
    readerAt schema (schema.read r).2 i = readerAt schema r (i + 1) := by
  induction i with
  | zero => rfl
  | succ i ih => rw [readerAt, ih, ← readerAt]

theorem startAt_read (schema : Schema) (r : ρ) (i : Nat) :
    startAt schema (schema.read r).2 i = startAt schema r (i + 1) := by
  rw [startAt, readerAt_read, ← startAt]

theorem rowAt_read (schema : Schema) (first : Nat) (r : ρ) (i : Nat) :
    rowAt schema (first + 1) (schema.read r).2 i = rowAt schema first r (i + 1) := by
  rw [rowAt, startAt_read, readerAt_read, Nat.add_assoc, Nat.add_comm 1, ← rowAt]

/-- The rows that are shown are the first of decoding without end: as many as are asked for, or
those before the first that begins at the end of the input or behind it. -/
theorem decode_eq (schema : Schema) (size count first : Nat) (r : ρ) :
    ∃ shown ≤ count, (∀ i < shown, startAt schema r i < size)
      ∧ (shown < count → size ≤ startAt schema r shown)
      ∧ decode schema size count first r
        = ⟨(List.range shown).map (rowAt schema first r),
          if shown < count then some (startAt schema r shown) else none,
          startAt schema r shown⟩ := by
  induction count generalizing first r with
  | zero =>
    exact ⟨0, Nat.le_refl 0, fun i hi => absurd hi (Nat.not_lt_zero i),
      fun h => absurd h (Nat.lt_irrefl 0), rfl⟩
  | succ count ih =>
    by_cases hend : size ≤ IntReader.position r
    · refine ⟨0, Nat.zero_le _, fun i hi => absurd hi (Nat.not_lt_zero i), fun _ => hend, ?_⟩
      rw [decode, if_pos hend, if_pos (Nat.zero_lt_succ count)]
      rfl
    · -- the first row is shown, and the rows behind it are those of the next reader
      obtain ⟨shown, hshown, hinside, hstop, hrest⟩ := ih (first + 1) (schema.read r).2
      simp only [startAt_read] at hinside hstop
      refine ⟨shown + 1, Nat.succ_le_succ hshown, ?_, ?_, ?_⟩
      · intro i hi
        cases i with
        | zero => exact Nat.not_le.mp hend
        | succ i => exact hinside i (Nat.lt_of_succ_lt_succ hi)
      · exact fun h => hstop (Nat.lt_of_succ_lt_succ h)
      · have hrows : (List.range (shown + 1)).map (rowAt schema first r)
            = ⟨first, IntReader.position r, (schema.read r).1⟩
              :: (List.range shown).map (rowAt schema (first + 1) (schema.read r).2) := by
          rw [List.range_succ_eq_map, List.map_cons, List.map_map]
          congr 1
          exact List.map_congr_left (fun i _ => (rowAt_read schema first r i).symm)
        rw [decode, if_neg hend, hrows]
        simp only [hrest, startAt_read, Nat.add_lt_add_iff_right]

/-- As many rows as are asked for, or as stand before the first one that is not shown. -/
theorem eq_min_of_isLeast {schema : Schema} {size count shown k : Nat} {r : ρ}
    (hshown : shown ≤ count) (hinside : ∀ i < shown, startAt schema r i < size)
    (hstop : shown < count → size ≤ startAt schema r shown)
    (hk : IsLeast {i | size ≤ startAt schema r i} k) : shown = min count k := by
  obtain ⟨hend, hleast⟩ := hk
  have hbefore : shown ≤ k := by
    by_contra hlt
    exact absurd hend (Nat.not_le.mpr (hinside k (Nat.not_le.mp hlt)))
  rcases Nat.lt_or_ge shown count with hmissing | hall
  · have hafter : k ≤ shown := hleast (hstop hmissing)
    omega
  · omega

end Endless

variable {c : Codec} {data data' : Array UInt8} {r r' : Codec.Reader}

/-! ## Progress -/

/-- Readers that are abreast stay so before every record, and each column has moved them on. -/
theorem abreast_readerAt (h : c.Abreast data data' r r') (schema : Schema) (i : Nat) :
    ∃ n, i * (schema.kinds.length * c.leastMove) ≤ n
      ∧ (readerAt schema r i).cursor = r.cursor + n
      ∧ (readerAt schema r' i).cursor = r'.cursor + n
      ∧ c.Abreast data data' (readerAt schema r i) (readerAt schema r' i) := by
  induction i with
  | zero => exact ⟨0, by simp, rfl, rfl, h⟩
  | succ i ih =>
    obtain ⟨n, hn, hcursor, hcursor', hbefore⟩ := ih
    obtain ⟨-, m, hm, hlast, hlast', hend⟩ := hbefore.readAll schema.kinds
    refine ⟨n + m, ?_, ?_, ?_, hend⟩
    · rw [Nat.succ_mul]
      omega
    · rw [readerAt, Schema.read, hlast, hcursor, Nat.add_assoc]
    · rw [readerAt, Schema.read, hlast', hcursor', Nat.add_assoc]

/-- The bits behind which a record begins grow with every column before it. -/
theorem cursor_readerAt (h : Codec.Reader.Sound data c r) (schema : Schema) (i : Nat) :
    r.cursor + i * (schema.kinds.length * c.leastMove) ≤ (readerAt schema r i).cursor
      ∧ startAt schema r i = (readerAt schema r i).cursor / 8 := by
  obtain ⟨n, hn, hcursor, -, hend⟩ := abreast_readerAt (Codec.Abreast.refl h) schema i
  exact ⟨hcursor ▸ Nat.add_le_add_left hn _, c.position_eq hend.left⟩

theorem startAt_mono (h : Codec.Reader.Sound data c r) (schema : Schema) :
    Monotone (startAt schema r) := by
  apply monotone_nat_of_le_succ
  intro i
  obtain ⟨-, -, -, -, hbefore⟩ := abreast_readerAt (Codec.Abreast.refl h) schema i
  obtain ⟨-, n, -, hcursor, -, hend⟩ := hbefore.readAll schema.kinds
  have hnext : startAt schema r (i + 1)
      = (Kind.readAll schema.kinds (readerAt schema r i)).2.cursor / 8 :=
    c.position_eq hend.left
  rw [hnext, (cursor_readerAt h schema i).2, hcursor]
  exact Nat.div_le_div_right (Nat.le_add_right _ _)

/-- Decoding that begins in a byte has its first record there. -/
theorem startAt_zero (c : Codec) (data : Array UInt8) (offset : Nat) (schema : Schema) :
    startAt schema (c.reader data offset) 0 = offset := by
  rw [startAt, readerAt, c.position_eq (c.sound_reader data offset), c.cursor_reader,
    Nat.mul_div_cancel_left _ (by decide)]

/-- There is a first record that begins at the end of the input or behind it. -/
theorem exists_isLeast_startAt (h : Codec.Reader.Sound data c r) {schema : Schema}
    (hkinds : schema.kinds ≠ []) (size : Nat) : ∃ k, IsLeast {i | size ≤ startAt schema r i} k := by
  have hexists : ∃ i, size ≤ startAt schema r i := by
    obtain ⟨hcursor, hstart⟩ := cursor_readerAt h schema (8 * size)
    have hstep : 1 ≤ schema.kinds.length * c.leastMove := by
      have hcolumns : 1 ≤ schema.kinds.length := List.length_pos_of_ne_nil hkinds
      have hleast : 1 ≤ c.leastMove := by cases c <;> decide
      exact Nat.mul_le_mul hcolumns hleast
    have hfar : 8 * size * 1 ≤ 8 * size * (schema.kinds.length * c.leastMove) :=
      Nat.mul_le_mul_left _ hstep
    refine ⟨8 * size, ?_⟩
    rw [hstart]
    omega
  exact ⟨Nat.find hexists, Nat.find_spec hexists, fun i hi => Nat.find_min' hexists hi⟩

/-- A record that begins inside the input has all columns before it inside the input. -/
theorem columns_lt (h : Codec.Reader.Sound data c r) {offset size : Nat}
    (hcursor : r.cursor = 8 * offset) {schema : Schema} {i : Nat}
    (hi : startAt schema r i < size) :
    i * schema.kinds.length * c.leastMove < 8 * (size - offset) := by
  obtain ⟨hle, hstart⟩ := cursor_readerAt h schema i
  rw [← Nat.mul_assoc] at hle
  omega

/-- When all but one of some rows fit into the room, there are no more of them than the room
divided by their width, rounded up. -/
theorem rows_le {rows width room : Nat} (hwidth : 0 < width)
    (h : 0 < rows → (rows - 1) * width < room) : rows ≤ (room + width - 1) / width := by
  rw [Nat.le_div_iff_mul_le hwidth]
  cases rows with
  | zero => simp
  | succ rows =>
    have hbefore : rows * width < room := h (Nat.zero_lt_succ rows)
    rw [Nat.succ_mul]
    omega

/-- Of records that begin inside the input there are no more than places for their columns: bits
with the sparse codec, bytes with the dense one. -/
theorem shown_le {offset : Nat} {schema : Schema} (hkinds : schema.kinds ≠ []) {size shown : Nat}
    (hinside : ∀ i < shown, startAt schema (c.reader data offset) i < size) :
    (c = .sparse →
        shown ≤ (8 * (size - offset) + schema.kinds.length - 1) / schema.kinds.length)
      ∧ (c = .dense → shown ≤ (size - offset + schema.kinds.length - 1) / schema.kinds.length) := by
  have hcolumns : 0 < schema.kinds.length := List.length_pos_of_ne_nil hkinds
  -- the last of them begins inside, and so do all columns before it
  have hroom : 0 < shown →
      (shown - 1) * schema.kinds.length * c.leastMove < 8 * (size - offset) :=
    fun hpos => columns_lt (c.sound_reader data offset) (c.cursor_reader data offset)
      (hinside (shown - 1) (by omega))
  constructor
  · rintro rfl
    rw [Codec.leastMove, Nat.mul_one] at hroom
    exact rows_le hcolumns hroom
  · rintro rfl
    rw [Codec.leastMove] at hroom
    exact rows_le hcolumns (fun hpos => by have := hroom hpos; omega)

/-! ## What stands before the first record -/

/-- What is decoded, when `lead` more bytes stand before it. -/
def Decoded.behind (lead : Nat) (d : Decoded) : Decoded :=
  ⟨d.rows.map (fun row => { row with offset := lead + row.offset }), d.ranPast.map (lead + ·),
    lead + d.last⟩

theorem position_behind (h : c.Abreast data data' r r') {lead : Nat}
    (hlead : r.cursor = 8 * lead + r'.cursor) :
    IntReader.position r = lead + IntReader.position r' := by
  rw [c.position_eq h.left, c.position_eq h.right, hlead, Nat.mul_add_div (by decide)]

/-- Readers that are abreast, one of them some bytes further on, decode the same. -/
theorem decode_behind (h : c.Abreast data data' r r') {lead : Nat}
    (hlead : r.cursor = 8 * lead + r'.cursor) (schema : Schema) (size count first : Nat) :
    decode schema (lead + size) count first r
      = (decode schema size count first r').behind lead := by
  induction count generalizing r r' first with
  | zero =>
    rw [decode, decode, Decoded.behind, position_behind h hlead]
    rfl
  | succ count ih =>
    obtain ⟨hread, n, -, hcursor, hcursor', hnext⟩ := h.readAll schema.kinds
    have hrest := ih hnext (by rw [hcursor, hcursor', hlead, Nat.add_assoc]) (first + 1)
    rw [decode, decode, position_behind h hlead]
    simp only [Nat.add_le_add_iff_left, Schema.read, hread, hrest]
    split <;> rfl

/-- Without the bytes before the place at which decoding begins, the same is decoded. -/
theorem decode_extract (c : Codec) {data : Array UInt8} {offset : Nat}
    (hoffset : offset ≤ data.size) (schema : Schema) (count first : Nat) :
    decode schema data.size count first (c.reader data offset)
      = (decode schema (data.extract offset data.size).size count first
          (c.reader (data.extract offset data.size) 0)).behind offset := by
  have hsize : data.size = offset + (data.extract offset data.size).size := by
    rw [Array.size_extract]
    omega
  have hlead : (c.reader data offset).cursor
      = 8 * offset + (c.reader (data.extract offset data.size) 0).cursor := by
    rw [c.cursor_reader, c.cursor_reader, Nat.mul_zero, Nat.add_zero]
  rw [← decode_behind (Codec.Abreast.extract c data offset) hlead, ← hsize]

/-! ## Lines -/

section Lines

variable {ρ : Type} [IntReader ρ] (json : Bool) (schema : Schema)

/-- Line `i` of decoding without end. -/
def lineAt (r : ρ) (i : Nat) : Line :=
  ⟨i, startAt schema r i, (schema.read (readerAt schema r i)).1.map (fieldOf json)⟩

theorem map_line_rows (r : ρ) (shown : Nat) :
    ((List.range shown).map (rowAt schema 0 r)).map (Row.line json)
      = (List.range shown).map (lineAt json schema r) := by
  rw [List.map_map]
  refine List.map_congr_left (fun i _ => ?_)
  rw [Function.comp_apply, rowAt, Nat.zero_add, Row.line, lineAt]

/-- The line shows what is read at its place. -/
theorem getElem?_lines (r : ρ) {shown i : Nat} (hi : i < shown) :
    ∃ fields, ((List.range shown).map (lineAt json schema r))[i]?
        = some ⟨i, startAt schema r i, fields⟩
      ∧ List.Forall₂ (Shows json) fields (schema.read (readerAt schema r i)).1 := by
  refine ⟨_, ?_, forall₂_shows json _⟩
  rw [List.getElem?_map, List.getElem?_range hi, Option.map_some, lineAt]

/-- The first line begins where decoding does. -/
theorem offset_head?_lines {c : Codec} {data : Array UInt8} {offset shown : Nat} {l : Line}
    (h : ((List.range shown).map (lineAt json schema (c.reader data offset))).head? = some l) :
    l.offset = offset := by
  rw [List.head?_map, Option.map_eq_some_iff] at h
  obtain ⟨i, hi, rfl⟩ := h
  rw [List.head?_range] at hi
  split at hi
  · cases hi
  · cases hi
    exact startAt_zero c data offset schema

end Lines

/-- The line, when `lead` more bytes stand before what is decoded. -/
def Line.behind (lead : Nat) (l : Line) : Line := { l with offset := lead + l.offset }

theorem lines_behind (json : Bool) (lead : Nat) (d : Decoded) :
    (d.behind lead).rows.map (Row.line json)
      = (d.rows.map (Row.line json)).map (Line.behind lead) := by
  rw [Decoded.behind, List.map_map, List.map_map]
  rfl

/-- Whatever the bytes are, a line is printed for every record up to the first that would begin at
their end or behind it, in order from the offset on, and no more than there are places for their
columns. It shows what is read there, and a warning is given just where lines are missing. Without
the bytes before the offset the lines are the same but for the places, which are as much nearer to
the beginning. -/
theorem dump_progresses (o : Options) (hkinds : o.schema.kinds ≠ []) (bytes : Array UInt8)
    (hoffset : o.offset ≤ bytes.size) :
    let size := bytes.size
    let columns := o.schema.kinds.length
    let r := o.codec.reader bytes o.offset
    let rest := bytes.extract o.offset size
    let o' : Options := { o with offset := 0 }
    ∃ (lines lines' : List Line) (last last' : Nat),
      Prints o size lines last (outcome o (.ok bytes))
        ∧ Prints o' rest.size lines' last' (outcome o' (.ok rest))
        ∧ (∃ k, IsLeast {i | size ≤ startAt o.schema r i} k ∧ lines.length = min o.records k)
        ∧ (∀ i < lines.length, ∃ fields, lines[i]? = some ⟨i, startAt o.schema r i, fields⟩
          ∧ List.Forall₂ (Shows o.json) fields (o.schema.read (readerAt o.schema r i)).1)
        ∧ last = startAt o.schema r lines.length
        ∧ lines.Pairwise (fun earlier later => earlier.offset ≤ later.offset)
        ∧ (∀ l, lines.head? = some l → l.offset = o.offset)
        ∧ (∀ l ∈ lines, l.offset < size)
        ∧ (o.codec = .sparse →
          lines.length ≤ (8 * (size - o.offset) + columns - 1) / columns)
        ∧ (o.codec = .dense → lines.length ≤ (size - o.offset + columns - 1) / columns)
        ∧ lines = lines'.map (Line.behind o.offset)
        ∧ last = o.offset + last' := by
  intro size columns r rest o'
  have hsound : Codec.Reader.Sound bytes o.codec r := o.codec.sound_reader bytes o.offset
  obtain ⟨shown, hshown, hinside, hstop, hdecode⟩ := decode_eq o.schema size o.records 0 r
  -- the lines are the first of decoding without end
  have hlines : (decode o.schema size o.records 0 r).rows.map (Row.line o.json)
      = (List.range shown).map (lineAt o.json o.schema r) := by
    rw [hdecode, map_line_rows]
  have hlast : (decode o.schema size o.records 0 r).last = startAt o.schema r shown :=
    congrArg Decoded.last hdecode
  have hprints : Prints o size ((List.range shown).map (lineAt o.json o.schema r))
      (startAt o.schema r shown) (outcome o (.ok bytes)) := by
    rw [← hlines, ← hlast]
    exact prints_outcome o hoffset
  have hbehind := decode_extract o.codec hoffset o.schema o.records 0
  obtain ⟨k, hk⟩ := exists_isLeast_startAt hsound hkinds size
  obtain ⟨hsparse, hdense⟩ := shown_le hkinds hinside
  refine ⟨_, _, _, _, hprints, prints_outcome o' (Nat.zero_le _), ?_⟩
  rw [List.length_map, List.length_range]
  refine ⟨⟨k, hk, eq_min_of_isLeast hshown hinside hstop hk⟩,
    fun i hi => getElem?_lines o.json o.schema r hi, rfl, ?_,
    fun l => offset_head?_lines o.json o.schema, ?_, hsparse, hdense, ?_, ?_⟩
  · rw [List.pairwise_map]
    exact List.pairwise_lt_range.imp (fun hlt => startAt_mono hsound o.schema (Nat.le_of_lt hlt))
  · intro l hl
    obtain ⟨i, hi, rfl⟩ := List.mem_map.mp hl
    exact hinside i (List.mem_range.mp hi)
  · rw [← hlines, hbehind, lines_behind]
  · rw [← hlast, hbehind]
    rfl

/-- Six tokens that go on, a bit that is zero, and ones that go on over the end: of a hundred
records that are asked for two are shown, and the second of them ends behind the last byte. -/
theorem dump_progresses_over_the_end :
    let o : Options := ⟨"cut.spk", ⟨[.int, .bool]⟩, 100, .sparse, 1, true, "warn", false⟩
    let bytes : Array UInt8 := #[0x81, 0xFF, 0xFF, 0xFF, 0xFF, 0xFF, 0xBF, 0x3F, 0xFF]
    let rest : Array UInt8 := #[0xFF, 0xFF, 0xFF, 0xFF, 0xFF, 0xBF, 0x3F, 0xFF]
    let o' : Options := { o with offset := 0 }
    o.schema.kinds ≠ [] ∧ o.offset ≤ bytes.size
      ∧ (outcome o (.ok bytes)).output
        = "\x7b\"index\":0,\"offset\":1,\"values\":[\x7b\"kind\":\"int\",\"value\":4294967295\x7d,"
          ++ "\x7b\"kind\":\"bool\",\"value\":false\x7d]\x7d\n"
          ++ "\x7b\"index\":1,\"offset\":7,\"values\":[\x7b\"kind\":\"int\",\"value\":0\x7d,"
          ++ "\x7b\"kind\":\"bool\",\"value\":true\x7d]\x7d\n"
      ∧ (outcome o (.ok bytes)).messages
        = ["Warning: stream ended after 2 records", "Decoded 2 records, reader at byte 10 of 9"]
      ∧ ∃ lines lines' : List Line, Prints o 9 lines 10 (outcome o (.ok bytes))
        ∧ Prints o' 8 lines' 9 (outcome o' (.ok rest))
        ∧ lines.length = 2 ∧ lines = lines'.map (Line.behind 1) := by
  intro o bytes rest o'
  have hkinds : o.schema.kinds ≠ [] := List.cons_ne_nil _ _
  have hoffset : o.offset ≤ bytes.size := by decide
  have hrest : bytes.extract o.offset bytes.size = rest := by decide
  obtain ⟨lines, lines', last, last', hprints, hprints', ⟨k, hk, hcount⟩, -, hlast, -, -, -, -, -,
    hshift, hend⟩ := dump_progresses o hkinds bytes hoffset
  -- the record after the second is the first to begin behind the end
  have hleast : IsLeast {i | bytes.size ≤ startAt o.schema (o.codec.reader bytes o.offset) i} 2 := by
    refine ⟨by decide +kernel, fun i hi => ?_⟩
    by_contra hlt
    have hbefore : ∀ i < 2, startAt o.schema (o.codec.reader bytes o.offset) i < bytes.size := by
      decide +kernel
    exact absurd hi (Nat.not_le.mpr (hbefore i (Nat.not_le.mp hlt)))
  have htwo : lines.length = 2 := by
    rw [hcount, hk.unique hleast]
    rfl
  have hten : last = 10 := by
    rw [hlast, htwo]
    decide +kernel
  have hnine : last' = 9 := by
    have hone : o.offset = 1 := rfl
    omega
  rw [hrest, hnine] at hprints'
  rw [hten] at hprints
  refine ⟨hkinds, hoffset, by decide +kernel, ?_, lines, lines', hprints, hprints', htwo, hshift⟩
  rw [hprints.messages, htwo]
  decide

end ValueStream.Tool.Dump
