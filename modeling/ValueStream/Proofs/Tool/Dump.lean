import ValueStream.Proofs.Tool.Generate
import ValueStream.Proofs.Tool.Line

/-!
The decoding tool undoes the encoding tool.

Decoding a count of records is cutting the integers of the file into that many
records (`rowsOf`), as long as the file holds that many integers: an integer
takes at least one bit, so a record of at least one kind never starts where its
file has ended (`decode_spec`). Where the file holds nothing but the integers of
the records, these rows are the records, and the lines that are printed show
them (`dump_undoes_encode`).
-/

namespace ValueStream.Tool

open Bits Trace

namespace Dump

/-- The rows that the integers of a file make, the first of them numbered `index` and
beginning at `bit`. -/
def rowsOf (c : Codec) (kinds : List Kind) : (count index bit : Nat) → List UInt32 → List Row
  | 0, _, _, _ => []
  | count + 1, index, bit, ws =>
    let record := ws.take (Kind.widthOf kinds)
    ⟨index, bit / 8, Kind.recordOf kinds record⟩
      :: rowsOf c kinds count (index + 1) (bit + (record.map c.cost).sum)
          (ws.drop (Kind.widthOf kinds))

theorem length_rowsOf (c : Codec) (kinds : List Kind) (count index bit : Nat) (ws : List UInt32) :
    (rowsOf c kinds count index bit ws).length = count := by
  induction count generalizing index bit ws with
  | zero => rfl
  | succ count ih => rw [rowsOf, List.length_cons, ih]

/-- Decoding cuts the integers at the cursor into records, and never finds the file at an end. -/
theorem decode_spec (c : Codec) {schema : Schema} (hkinds : schema.kinds ≠ [])
    {data : Array UInt8} {r : Codec.Reader} (hr : Codec.Reader.Sound data c r) {ws : List UInt32}
    (hlies : LiesAt (endless data) r.cursor (ws.flatMap c.code))
    (hsize : r.cursor + (ws.map c.cost).sum ≤ 8 * data.size) {count : Nat}
    (hcount : count * Kind.widthOf schema.kinds ≤ ws.length) (index : Nat) :
    decode schema data.size count index r
      = ⟨rowsOf c schema.kinds count index r.cursor ws, none,
        (r.cursor + ((ws.take (count * Kind.widthOf schema.kinds)).map c.cost).sum) / 8⟩ := by
  induction count generalizing r ws index with
  | zero =>
    rw [decode, rowsOf, c.position_eq hr, Nat.zero_mul, List.take_zero, List.map_nil,
      List.sum_nil, Nat.add_zero]
  | succ count ih =>
    generalize hwidth : Kind.widthOf schema.kinds = width at hcount ih ⊢
    have hpos : 0 < width := hwidth ▸ Kind.widthOf_pos hkinds
    have hsucc : (count + 1) * width = width + count * width := by rw [Nat.succ_mul, Nat.add_comm]
    rw [hsucc] at hcount ⊢
    -- the integers of the first record, and those behind them
    have hfirst : (ws.take width).length = width :=
      List.length_take_of_le (Nat.le_trans (Nat.le_add_right _ _) hcount)
    have hsplit : ws = ws.take width ++ ws.drop width := (List.take_append_drop width ws).symm
    have hsum : (ws.map c.cost).sum
        = ((ws.take width).map c.cost).sum + ((ws.drop width).map c.cost).sum := by
      conv_lhs => rw [hsplit]
      rw [List.map_append, List.sum_append]
    rw [hsplit, List.flatMap_append, liesAt_append, c.length_flatMap_code] at hlies
    -- an integer takes a bit or more, so the file goes on behind the cursor
    have hbits := c.length_le_cost (ws.take width)
    rw [hfirst] at hbits
    have hinside : ¬ data.size ≤ r.cursor / 8 := by omega
    obtain ⟨hnext, hread, hcursor⟩ := (c.recalls data).readInts hr hlies.1
    rw [hfirst] at hnext hread hcursor
    rw [c.length_flatMap_code] at hcursor
    have hrest := ih hnext (hcursor ▸ hlies.2) (by omega)
      (by rw [List.length_drop]; omega) (index + 1)
    rw [decode, c.position_eq hr, if_neg hinside, Schema.read, Kind.readAll_eq, hwidth, hread]
    show Decoded.mk _ _ _ = _
    rw [hrest, hcursor, rowsOf, hwidth, List.take_add, List.map_append, List.sum_append,
      Nat.add_assoc]

/-- Decoding as many records as were encoded cuts the integers of the file into that many. -/
theorem decode_encode (o : Options) (hkinds : o.schema.kinds ≠ []) {records : List (List Value)}
    (hrecords : ∀ r ∈ records, r.map Value.kind = o.schema.kinds)
    (hcount : o.records = records.length) (hoffset : o.offset = 0) (scopes : Bool) :
    let bytes := (Generate.encode o.codec records scopes).value
    let ws := Generate.intsOf o.codec scopes records
    decode o.schema bytes.size o.records 0 (o.codec.reader bytes o.offset)
      = ⟨rowsOf o.codec o.schema.kinds records.length 0 0 ws, none,
        ((ws.take (Value.intsOf records.flatten).length).map o.codec.cost).sum / 8⟩ := by
  intro bytes ws
  obtain ⟨hlies, hsize⟩ := Generate.encode_spec o.codec records scopes
  have hbits : bytes.size
      = (((Generate.intsOf o.codec scopes records).map o.codec.cost).sum + 7) / 8 := hsize
  have hcursor : (o.codec.reader bytes 0).cursor = 0 := o.codec.cursor_reader bytes 0
  have henough := Generate.length_intsOf_le o.codec scopes records
  rw [Kind.length_intsOf_flatten hrecords] at henough
  have hdecode := decode_spec o.codec hkinds (o.codec.sound_reader bytes 0)
    (hcursor.symm ▸ hlies) (by rw [hcursor, hbits]; omega) henough 0
  rw [hcount, hoffset, hdecode, hcursor, Nat.zero_add, Kind.length_intsOf_flatten hrecords]

/-- The rows of the integers of records are the records, each beginning where the ones before it end. -/
theorem getElem?_rowsOf (c : Codec) {kinds : List Kind} {records : List (List Value)}
    (hrecords : ∀ r ∈ records, r.map Value.kind = kinds) (index bit : Nat) {i : Nat}
    {r : List Value} (hr : records[i]? = some r) :
    (rowsOf c kinds records.length index bit (Value.intsOf records.flatten))[i]?
      = some ⟨index + i, (bit + c.bitsOf (records.take i).flatten) / 8, r⟩ := by
  induction records generalizing index bit i with
  | nil => exact absurd hr (by simp)
  | cons first rest ih =>
    obtain rfl := hrecords first List.mem_cons_self
    have hlength := Kind.length_intsOf first
    rw [List.flatten_cons, Value.intsOf_append, List.length_cons, rowsOf,
      List.take_left' hlength, List.drop_left' hlength]
    cases i with
    | zero =>
      obtain rfl : first = r := Option.some.inj hr
      have hrecord := Kind.recordOf_ints first []
      rw [List.append_nil] at hrecord
      rw [List.getElem?_cons_zero, hrecord]
      rfl
    | succ i =>
      have htake : c.bitsOf ((first :: rest).take (i + 1)).flatten
          = c.bitsOf first + c.bitsOf (rest.take i).flatten := by
        rw [List.take_succ_cons, List.flatten_cons, Codec.bitsOf_append]
      rw [List.getElem?_cons_succ, htake, ← Nat.add_assoc, ← Nat.add_assoc, Nat.add_right_comm index]
      exact ih (fun r h => hrecords r (List.mem_cons_of_mem _ h)) _ _ hr

/-- Every record that was encoded is printed: there are as many lines and none is missing, each
shows the values that its record had and the byte in which it begins, and the reader is left in the
last byte or behind it. -/
theorem dump_undoes_encode (o : Options) (hkinds : o.schema.kinds ≠ [])
    (records : List (List Value)) (hrecords : ∀ r ∈ records, r.map Value.kind = o.schema.kinds)
    (hcount : o.records = records.length) (hoffset : o.offset = 0) (scopes : Bool)
    (hscopes : scopes = true → o.codec = .dense) :
    let bytes := (Generate.encode o.codec records scopes).value
    let d := decode o.schema bytes.size o.records 0 (o.codec.reader bytes o.offset)
    ∃ lines : List Line,
      Prints o bytes.size lines d.last (outcome o (.ok bytes))
        ∧ lines.length = records.length
        ∧ d.rows.length = records.length
        ∧ (∀ (i : Nat) (r : List Value), records[i]? = some r →
          ∃ fields values,
            lines[i]? = some ⟨i, o.codec.bitsOf (records.take i).flatten / 8, fields⟩
              ∧ List.Forall₂ (Shows o.json) fields r
              ∧ d.rows[i]? = some ⟨i, o.codec.bitsOf (records.take i).flatten / 8, values⟩
              ∧ Value.allBitsEq values r = true)
        ∧ d.ranPast = none
        ∧ d.last = o.codec.bitsOf records.flatten / 8
        ∧ (bytes.size = d.last ∨ bytes.size = d.last + 1) := by
  intro bytes d
  have hints : Generate.intsOf o.codec scopes records = Value.intsOf records.flatten := by
    cases scopes with
    | false => exact Generate.intsOf_unscoped o.codec records
    | true => rw [hscopes rfl]; exact Generate.intsOf_dense true records
  have hd : d = ⟨rowsOf o.codec o.schema.kinds records.length 0 0 (Value.intsOf records.flatten),
      none, o.codec.bitsOf records.flatten / 8⟩ := by
    have hdecode := decode_encode o hkinds hrecords hcount hoffset scopes
    simp only [hints, List.take_length] at hdecode
    exact hdecode
  have hsize : bytes.size = (o.codec.bitsOf records.flatten + 7) / 8 := by
    rw [Codec.bitsOf, ← hints]
    exact (Generate.encode_spec o.codec records scopes).2
  have hrows : d.rows.length = records.length := by rw [hd]; exact length_rowsOf _ _ _ _ _ _
  have hran : d.ranPast = none := by rw [hd]
  have hlast : d.last = o.codec.bitsOf records.flatten / 8 := by rw [hd]
  have hprints : Prints o bytes.size (d.rows.map (Row.line o.json)) d.last (outcome o (.ok bytes)) :=
    prints_outcome o (hoffset ▸ Nat.zero_le _)
  refine ⟨d.rows.map (Row.line o.json), hprints, by rw [List.length_map, hrows], hrows, ?_, hran,
    hlast, by omega⟩
  intro i r hr
  have hrow : d.rows[i]? = some ⟨i, o.codec.bitsOf (records.take i).flatten / 8, r⟩ := by
    have hplace := getElem?_rowsOf o.codec hrecords 0 0 hr
    rw [Nat.zero_add, Nat.zero_add] at hplace
    rw [hd]
    exact hplace
  refine ⟨r.map (fieldOf o.json), r, ?_, forall₂_shows o.json r, hrow, Value.allBitsEq_self r⟩
  rw [List.getElem?_map, hrow]
  rfl

/-- Records of 2, 32, 2 and 9 bits: only the first of them begins at a byte. -/
theorem dump_undoes_encode_within_a_byte :
    let o : Options := ⟨"mixed.spk", ⟨[.bool, .int]⟩, 4, .sparse, 0, false, "warn", false⟩
    let records : List (List Value) :=
      [[.bool false, .int 0], [.bool true, .int 4096], [.bool false, .int 0], [.bool false, .int 1]]
    let bytes := (Generate.encode o.codec records false).value
    let d := decode o.schema bytes.size o.records 0 (o.codec.reader bytes o.offset)
    o.schema.kinds ≠ [] ∧ (∀ r ∈ records, r.map Value.kind = o.schema.kinds)
      ∧ d.rows.length = 4 ∧ d.ranPast = none ∧ d.last = 5 ∧ bytes.size = 6
      ∧ (outcome o (.ok bytes)).output
        = "     0 @0      false,0\n     1 @0      true,4096\n"
          ++ "     2 @4      false,0\n     3 @4      false,1\n"
      ∧ ∃ lines : List Line, Prints o 6 lines 5 (outcome o (.ok bytes))
        ∧ ∃ fields, lines[3]? = some ⟨3, 4, fields⟩
          ∧ List.Forall₂ (Shows false) fields [.bool false, .int 1] := by
  intro o records bytes d
  have hkinds : o.schema.kinds ≠ [] := List.cons_ne_nil _ _
  have hrecords : ∀ r ∈ records, r.map Value.kind = o.schema.kinds := by decide +kernel
  obtain ⟨lines, hprints, -, hrows, hvalues, hran, hlast, -⟩ :=
    dump_undoes_encode o hkinds records hrecords rfl rfl false (fun h => absurd h Bool.false_ne_true)
  have hend : d.last = 5 := hlast.trans (by decide +kernel)
  have hsize : bytes.size = 6 := by decide +kernel
  have hplace : o.codec.bitsOf (records.take 3).flatten / 8 = 4 := by decide +kernel
  obtain ⟨fields, -, hfourth, hshows, -⟩ := hvalues 3 [.bool false, .int 1] rfl
  rw [hplace] at hfourth
  refine ⟨hkinds, hrecords, hrows, hran, hend, hsize, by decide +kernel, lines, ?_, fields, hfourth,
    hshows⟩
  rw [← hend, ← hsize]
  exact hprints

end Dump

end ValueStream.Tool
