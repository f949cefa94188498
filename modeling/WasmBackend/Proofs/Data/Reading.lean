import WasmBackend.Proofs.Printed.Reading

/-!
# Reading constant data back

A line that says `(data (offset (i32.const A)) "…")`, with every byte an escape, stands for a block
(`dataLine?`), and the blocks of a text are those of its lines, in order (`dataBlocks`). The blocks
that a printed module reads as are its data (`Wat.Module.Forms.dataBlocks_eq`).

Other ways to write data down, which no module is printed in, are not read.
-/

namespace WasmBackend

namespace Text

/-! ## One line -/

/-- The escaped bytes up to the end of a data line. -/
def escapedBytes? : List Char → Option (List UInt8)
  | ['"', ')'] => some []
  | '\\' :: high :: low :: rest => do
    let h ← hexValue? high
    let l ← hexValue? low
    return UInt8.ofNat (16 * h + l) :: (← escapedBytes? rest)
  | _ => none

/-- The block that a line of text stands for, if it is a data line. -/
def dataLine? (line : List Char) : Option DataBlock := do
  let rest ← after? "(data (offset (i32.const ".toList (line.dropWhile isBlank)
  let quoted ← after? ")) \"".toList (rest.dropWhile Char.isDigit)
  return ⟨Nat.ofDigitChars 10 (rest.takeWhile Char.isDigit) 0, ← escapedBytes? quoted⟩

theorem escapedBytes?_hexByte (byte : UInt8) (rest : List Char) :
    escapedBytes? ('\\' :: hexByte byte ++ rest) = (escapedBytes? rest).map (byte :: ·) := by
  have hlt : byte.toNat < 256 := byte.toNat_lt
  have hhigh : hexValue? (hexDigit (byte.toNat / 16)) = some (byte.toNat / 16) :=
    hexValue?_hexDigit (by omega)
  have hlow : hexValue? (hexDigit (byte.toNat % 16)) = some (byte.toNat % 16) :=
    hexValue?_hexDigit (by omega)
  have hvalue : UInt8.ofNat (16 * (byte.toNat / 16) + byte.toNat % 16) = byte := by
    rw [Nat.div_add_mod]
    exact UInt8.ofNat_toNat
  unfold hexByte
  simp only [List.cons_append, List.nil_append]
  rw [escapedBytes?, hhigh, hlow]
  cases escapedBytes? rest with
  | none => rfl
  | some bytes => exact congrArg (fun b => some (b :: bytes)) hvalue

theorem escapedBytes?_bytes (bytes : List UInt8) :
    escapedBytes? ((bytes.flatMap fun byte => '\\' :: hexByte byte) ++ "\")".toList) =
      some bytes := by
  induction bytes with
  | nil => rfl
  | cons byte rest ih =>
    rw [List.flatMap_cons, List.append_assoc, escapedBytes?_hexByte, ih]
    rfl

/-- Digits before something else. -/
theorem span_digits (n : Nat) (rest : List Char) (h : rest.head?.all (fun c => !c.isDigit)) :
    (Nat.toDigits 10 n ++ rest).takeWhile Char.isDigit = Nat.toDigits 10 n ∧
      (Nat.toDigits 10 n ++ rest).dropWhile Char.isDigit = rest := by
  have hdigits : ∀ c ∈ Nat.toDigits 10 n, c.isDigit = true := fun c hc =>
    Nat.isDigit_of_mem_toDigits (by decide) (by decide) hc
  rw [List.takeWhile_append_of_pos hdigits, List.dropWhile_append_of_pos hdigits]
  cases rest with
  | nil => simp
  | cons c rest => simp_all

/-- A data line reads back. -/
theorem dataLine?_dataText (b : DataBlock) : dataLine? (Wat.dataText b).toList = some b := by
  let quoted := (b.bytes.flatMap fun byte => '\\' :: hexByte byte) ++ "\")".toList
  have htext : (Wat.dataText b).toList = "(data (offset (i32.const ".toList ++
      (Nat.toDigits 10 b.address ++ (")) \"".toList ++ quoted)) := by
    unfold Wat.dataText
    simp only [quoted, String.toList_append, Nat.toString_eq_repr, Nat.toList_repr,
      String.toList_ofList, List.append_assoc]
  have hquoted : escapedBytes? quoted = some b.bytes := escapedBytes?_bytes b.bytes
  obtain ⟨htake, hdrop⟩ := span_digits b.address (")) \"".toList ++ quoted) rfl
  have hstart : ∀ cs, ("(data (offset (i32.const ".toList ++ cs).dropWhile isBlank =
      "(data (offset (i32.const ".toList ++ cs := fun cs => rfl
  unfold dataLine?
  rw [htext, hstart, after?_append]
  simp only [Option.bind_eq_bind, Option.bind_some, htake, hdrop, after?_append, hquoted,
    Nat.ofDigitChars_ten_toDigits]
  rfl

/-- Only data lines are read. -/
theorem readsOnly_dataLine : ReadsOnly 'd' dataLine? := by
  apply ReadsOnly.of_after (show Form 'd' "(data (offset (i32.const " by decide)
  intro cs hblank hcs
  have hdrop : cs.dropWhile isBlank = cs := by
    cases cs with
    | nil => rfl
    | cons c rest =>
      have hc : isBlank c = false := hblank
      rw [List.dropWhile_cons_of_neg (by simp [hc])]
  unfold dataLine?
  rw [hdrop, hcs]
  rfl

/-! ## Texts -/

/-- The blocks of a text, line by line. -/
def dataBlocks (text : List Char) : List DataBlock := (text.splitOn '\n').filterMap dataLine?

/-- Indentation does not count. -/
theorem dataLine?_dropBlanks (cs : List Char) :
    dataLine? (cs.dropWhile (· == ' ')) = dataLine? cs := by
  induction cs with
  | nil => rfl
  | cons c rest ih =>
    by_cases hc : c = ' '
    · subst hc
      exact ih
    · rw [List.dropWhile_cons_of_neg (by simpa using hc)]

theorem dataBlocks_eq_readAll (text : List Char) : dataBlocks text = readAll dataLine? text := by
  simp only [dataBlocks, readAll, lines, List.filterMap_eq_flatMap_toList, List.flatMap_map,
    TextLine.ofChars, dataLine?_dropBlanks]

end Text

open Text

/-- A printed module whose names hold no line break reads as its data. -/
theorem Wat.Module.Forms.dataBlocks_eq {w : Wat.Module} (h : w.Forms) :
    dataBlocks w.text.toList = w.data := by
  rw [dataBlocks_eq_readAll, h.read_data readsOnly_dataLine]
  simp only [dataLine?_dataText, Option.toList_some, List.flatMap_singleton']

end WasmBackend
