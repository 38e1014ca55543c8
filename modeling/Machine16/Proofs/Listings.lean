import Machine16.Proofs.Reassembly
import Machine16.Proofs.Rereading

/-! Listings as sources. Without its addresses a listing is a program that assembles to what was listed;
where there is no listing, the bytes can be read off the dump. -/
namespace Machine16.Listing

/-- A line without the address in front of it. -/
def dropAddress : List Char → List Char
  | '0' :: 'x' :: line =>
    match line.dropWhile Hex.isDigit with
    | ':' :: ' ' :: rest => rest
    | _ => '0' :: 'x' :: line
  | line => line

/-- A text without the addresses in front of its lines. -/
def dropAddresses (text : String) : String :=
  String.ofList (['\n'].intercalate ((text.toList.splitOn '\n').map dropAddress))

/-- A byte that is written with two digits. -/
def readByte? : List Char → Option Byte
  | [high, low] =>
    if Hex.isDigit high && Hex.isDigit low then some (UInt8.ofNat (Hex.value [high, low])) else none
  | _ => none

/-- What stands behind the addresses of a dump, column by column and row by row. -/
def columns (dump : String) : List (List Char) :=
  (dump.toList.splitOn '\n').flatMap fun row => (row.splitOn ' ').tail

section Lines

variable {lines : List (List Char)}

lemma lines_eq_intercalate (lines : List (List Char)) :
    lines.flatMap (· ++ ['\n']) = ['\n'].intercalate (lines ++ [[]]) := by
  induction lines with
  | nil => rfl
  | cons l lines ih =>
    rw [List.flatMap_cons, List.cons_append, List.intercalate_cons_of_ne_nil (by simp), ih]

/-- Lines are split where they have been put together. -/
lemma splitOn_lines (h : ∀ l ∈ lines, '\n' ∉ l) :
    (lines.flatMap (· ++ ['\n'])).splitOn '\n' = lines ++ [[]] := by
  rw [lines_eq_intercalate, List.splitOn_intercalate _ ?_ (by simp)]
  intro l hl
  obtain hl | hl := List.mem_append.mp hl
  · exact h l hl
  · simp [List.mem_singleton.mp hl]

lemma toList_dropAddresses {text : String} (htext : text.toList = lines.flatMap (· ++ ['\n']))
    (h : ∀ l ∈ lines, '\n' ∉ l) :
    (dropAddresses text).toList = (lines.map dropAddress).flatMap (· ++ ['\n']) := by
  rw [dropAddresses, String.toList_ofList, htext, splitOn_lines h, List.map_append, lines_eq_intercalate]
  rfl

lemma dropAddress_digits (k n : Nat) (rest : List Char) :
    dropAddress ('0' :: 'x' :: (Hex.digits k n ++ ':' :: ' ' :: rest)) = rest := by
  have hstops : Stops Hex.isDigit (':' :: ' ' :: rest) := stops_cons.mpr rfl
  obtain ⟨-, hdrop⟩ := span_of_stops (fun c hc => Hex.isDigit_of_mem_digits hc) hstops
  rw [dropAddress, hdrop]
  rfl

end Lines

section Sources

lemma not_mem_digits {c : Char} (hc : Hex.isDigit c = false) (k n : Nat) : c ∉ Hex.digits k n := by
  intro h
  rw [Hex.isDigit_of_mem_digits h] at hc
  cases hc

lemma newline_not_mem_digits (k n : Nat) : '\n' ∉ Hex.digits k n := not_mem_digits rfl k n

lemma newline_not_mem_commaSeparated {pss : List (List Piece)} (h : ∀ ps ∈ pss, '\n' ∉ joined ps) :
    '\n' ∉ joined (commaSeparated pss) := by
  cases pss with
  | nil => simp [commaSeparated]
  | cons ps pss =>
    rw [List.forall_mem_cons] at h
    rw [commaSeparated, joined_append, List.mem_append, not_or]
    refine ⟨h.1, fun hmem => ?_⟩
    obtain ⟨p, hp, hchar⟩ := List.mem_flatMap.mp hmem
    obtain ⟨qs, hqs, hp⟩ := List.mem_flatMap.mp hp
    obtain rfl | hp := List.mem_cons.mp hp
    · revert hchar
      decide
    · exact h.2 qs hqs (List.mem_flatMap.mpr ⟨p, hp, hchar⟩)

/-- An instruction on numbers is printed in one line. -/
lemma newline_not_mem_print (i : Instruction Word) : '\n' ∉ i.symbolic.print.toList := by
  have hoperand (o : Operand Word) :
      '\n' ∉ joined (o.map fun w => Expression.literal w.toUInt32).pieces := by
    cases o with
    | literal w | byte w | address w =>
      simp [Operand.map, Operand.pieces, Operand.literalPieces, Operand.addressPieces, Piece.text,
        newline_not_mem_digits]
    | register r | pointer r | indirect r => cases r <;> decide
  have hmnemonic : '\n' ∉ i.opcode.mnemonic.toList := by
    intro h
    cases Grammar.isNameChar_of_isName (Grammar.isName_mnemonic i.opcode) _ h
  rw [← Instruction.joined_pieces]
  obtain ⟨op, os⟩ := i
  cases os with
  | nil => simpa [Instruction.symbolic, Instruction.map, Instruction.pieces, Piece.text] using hmnemonic
  | cons o os =>
    have hall : ∀ ps ∈ ((o :: os).map (Operand.map fun w => .literal w.toUInt32)).map Operand.pieces,
        '\n' ∉ joined ps := by simpa using ⟨hoperand o, fun o _ => hoperand o⟩
    have hoperands := newline_not_mem_commaSeparated hall
    simp only [Instruction.symbolic, Instruction.map, Instruction.pieces, List.map_cons, joined_cons,
      List.mem_append, not_or] at hoperands ⊢
    exact ⟨hmnemonic, by decide, hoperands⟩

lemma wellFormed_symbolic {i : Instruction Word} (hi : i.Listable) : i.symbolic.WellFormed := by
  refine ⟨(i.format_map _).trans hi.format_eq, fun o ho => ?_⟩
  obtain ⟨w, -, rfl⟩ := List.mem_map.mp ho
  cases w <;> trivial

/-- The listed instructions as a program of their own. -/
def source (is : List (Word × Instruction Word)) : Program :=
  is.map fun x => ⟨.instruction x.2.symbolic, ⟨0, 0⟩⟩

lemma dropAddresses_print {bytes : List Byte} {is : List (Word × Instruction Word)}
    (h : disassemble bytes = .ok is) : dropAddresses (print bytes) = (source is).print := by
  have hprint : (print bytes).toList = (is.map fun x => '0' :: 'x' :: (Hex.digits 4 x.1.toNat ++
      ':' :: ' ' :: x.2.symbolic.print.toList)).flatMap (· ++ ['\n']) := by
    simp [print, h, line, String.toList_join, List.flatMap_map]
  have hlines : ∀ l ∈ is.map fun x => '0' :: 'x' :: (Hex.digits 4 x.1.toNat ++
      ':' :: ' ' :: x.2.symbolic.print.toList), '\n' ∉ l := by
    intro l hl
    obtain ⟨x, -, rfl⟩ := List.mem_map.mp hl
    simp [newline_not_mem_digits, newline_not_mem_print]
  apply String.toList_inj.mp
  rw [toList_dropAddresses hprint hlines]
  simp [source, Program.print, Statement.print, String.toList_join, List.flatMap_map, Function.comp_def,
    dropAddress_digits]

/-- The source assembles to the encoding of its instructions. -/
lemma assemble_source {is : List (Word × Instruction Word)} (his : ∀ x ∈ is, x.2.Listable) :
    assemble (source is).print = .ok (encode is) := by
  have hwell : (source is).WellFormed := by
    intro n hn
    obtain ⟨x, hx, rfl⟩ := List.mem_map.mp hn
    exact wellFormed_symbolic (his x hx)
  obtain ⟨q, hq, hstatements⟩ := Program.parse_of_spelled hwell
    ((source is).joined_pieces ▸ Spelled.joined (source is).pieces)
  have hcompile : q.compile = .ok ((is.map Prod.snd).flatMap Instruction.encode) := by
    refine Program.compile_symbolic ?_ (hstatements.trans ?_)
    · intro i hi
      obtain ⟨x, hx, rfl⟩ := List.mem_map.mp hi
      exact his x hx
    · simp [source, Program.statements, Function.comp_def]
  rw [assemble, hq]
  change q.compile.mapError AssemblyError.uncompilable = _
  rw [hcompile, List.flatMap_map]
  rfl

end Sources

section Dumps

lemma readByte?_digits (b : Byte) : readByte? (Hex.digits 2 b.toNat) = some b := by
  have hall : ∀ n < 256, readByte? (Hex.digits 2 n) = some (UInt8.ofNat n) := by decide +kernel
  rw [hall b.toNat b.toNat_lt, UInt8.ofNat_toNat]

/-- The words of a row are its address and its columns. -/
lemma splitOn_row {label : List Char} (hlabel : ' ' ∉ label) (bytes : List Byte) :
    (label ++ bytes.flatMap fun b => ' ' :: Hex.digits 2 b.toNat).splitOn ' ' =
      label :: bytes.map fun b => Hex.digits 2 b.toNat := by
  have hrow : (label ++ bytes.flatMap fun b => ' ' :: Hex.digits 2 b.toNat) =
      [' '].intercalate (label :: bytes.map fun b => Hex.digits 2 b.toNat) := by
    rw [intercalate_cons, List.flatMap_map]
    rfl
  rw [hrow, List.splitOn_intercalate _ ?_ (by simp)]
  refine List.forall_mem_cons.mpr ⟨hlabel, fun l hl => ?_⟩
  obtain ⟨b, -, rfl⟩ := List.mem_map.mp hl
  exact not_mem_digits rfl 2 b.toNat

lemma dumpRows_columns (address : Nat) (bytes : List Byte) :
    ∃ rows : List (List Char), (String.join (dumpRows address bytes)).toList = rows.flatMap (· ++ ['\n']) ∧
      (∀ row ∈ rows, '\n' ∉ row) ∧
      (rows.flatMap fun row => (row.splitOn ' ').tail) = bytes.map fun b => Hex.digits 2 b.toNat := by
  fun_induction dumpRows address bytes with
  | case1 address => exact ⟨[], by simp, by simp, rfl⟩
  | case2 address b bs ih =>
    obtain ⟨rows, htext, hrows, hcolumns⟩ := ih
    have hlabel : ' ' ∉ '0' :: 'x' :: (Hex.digits 4 address ++ [':']) := by
      simpa using not_mem_digits rfl 4 address
    refine ⟨('0' :: 'x' :: (Hex.digits 4 address ++ [':']) ++
      (b :: bs.take 7).flatMap fun b => ' ' :: Hex.digits 2 b.toNat) :: rows, ?_, ?_, ?_⟩
    · simp only [String.toList_join] at htext
      simp [htext, String.toList_join, -List.map_take, List.flatMap_map]
    · refine List.forall_mem_cons.mpr ⟨?_, hrows⟩
      simp [newline_not_mem_digits]
    · rw [List.flatMap_cons, splitOn_row hlabel, hcolumns, List.tail_cons, ← List.map_append,
        List.cons_append, List.take_append_drop]

lemma columns_dump (bytes : List Byte) :
    (columns (String.join (dumpRows 0 bytes))).map readByte? = bytes.map some := by
  obtain ⟨rows, htext, hrows, hcolumns⟩ := dumpRows_columns 0 bytes
  rw [columns, htext, splitOn_lines hrows, List.flatMap_append, hcolumns]
  simp [Function.comp_def, readByte?_digits]

end Dumps

/-- A listing is a source for what it lists. Without the addresses it assembles to as many bytes, which
differ from the listed ones in nothing but that the selectors are the smallest for their registers, and
which are listed alike. If there is no listing, the columns of the dump are the bytes. -/
theorem assemble_listing (bytes : List Byte) :
    (∀ is, disassemble bytes = .ok is →
      (selectors is).length = bytes.length ∧
      ∃ bytes', assemble (dropAddresses (print bytes)) = .ok bytes' ∧
        bytes'.length = bytes.length ∧ bytes' = reduceSelectors (selectors is) bytes ∧
        disassemble bytes' = .ok is ∧
        (bytes' = bytes ↔ ∀ x ∈ (selectors is).zip bytes, x.1 = true → x.2 < 14)) ∧
    (∀ e, disassemble bytes = .error e → (columns (print bytes)).map readByte? = bytes.map some) := by
  constructor
  · intro is h
    have hlists := disassemble_eq_ok.mp h
    obtain ⟨hlength, hencode⟩ := hlists.reencoded
    refine ⟨hlength, encode is, ?_, ?_, hencode, disassemble_eq_ok.mpr hlists.encode, ?_⟩
    · rw [dropAddresses_print h, assemble_source hlists.listable]
    · rw [hencode, reduceSelectors, List.length_zipWith, hlength, Nat.min_self]
    · rw [hencode, reduceSelectors_eq_self hlength]
  · intro e h
    have hprint : print bytes = String.join (dumpRows 0 bytes) := by rw [print, h]
    rw [hprint, columns_dump]

/-- `mov &r2, r3` with a selector that is too large, and an opcode without its operands. -/
theorem assemble_listing_sample :
    assemble (dropAddresses (print [0x1C, 15, 2, 0xFF])) = .ok [0x1C, 1, 2, 0xFF] ∧
      (columns (print [0x4A, 0x1F])).map readByte? = [some 0x4A, some 0x1F] := by
  have hlisted : disassemble [0x1C, 15, 2, 0xFF] =
      .ok [(0, ⟨.movRegPtrReg, [.pointer .r2, .register .r3]⟩), (3, ⟨.hlt, []⟩)] := by decide +kernel
  obtain ⟨-, bytes', hassemble, -, rfl, -⟩ := (assemble_listing [0x1C, 15, 2, 0xFF]).1 _ hlisted
  exact ⟨hassemble, (assemble_listing [0x4A, 0x1F]).2 (.truncated 0 .jmp) (by decide +kernel)⟩

end Machine16.Listing
