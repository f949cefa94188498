import Mathlib.Data.List.TakeWhile
import Mathlib.Data.Option.Basic
import WasmBackend.Json.Printer
import WasmBackend.Json.Reader

/-!
# Values as text

Whatever is written is read back (`parse?_render`), as long as its numbers are: integers that fit a
word of 64 bits always, doubles by assumption (`Writable`).

A text is described by what it does (`Spells`): the printer appends it to what it has written so
far, and the reader takes it off the front of its input and leaves the rest. Strings and the
bracketed values end by themselves. A number ends where no digit, point or exponent follows, so the
reader of numbers is first shown not to look further (`number?_append`), and whatever a value can be
followed by stops a number (`Stops`).
-/

namespace WasmBackend.Json

/-! ## Strings -/

theorem stringPieces_plain {c : Char} (hquote : c ≠ '"') (hslash : c ≠ '\\')
    (hcontrol : ¬c.toNat < 0x20) (tail : List Char) :
    stringPieces (c :: tail) =
      (stringPieces tail).map fun found => (.char c :: found.1, found.2) := by
  rw [stringPieces]
  · simp [hslash, hcontrol, Option.map_eq_bind]
  · exact hquote
  · rintro a b c' d rest rfl
    exact absurd rfl hslash
  · rintro a rest rfl
    exact absurd rfl hslash

theorem stringPieces_hex {n : Nat} (h : n < 0x20) (tail : List Char) :
    stringPieces ('\\' :: 'u' :: '0' :: '0' :: Text.hexDigit (n / 16) :: Text.hexDigit (n % 16) ::
      tail) = (stringPieces tail).map fun found => (.unit n :: found.1, found.2) := by
  have hhigh := Text.hexValue?_hexDigit (show n / 16 < 16 by omega)
  have hlow := Text.hexValue?_hexDigit (show n % 16 < 16 by omega)
  have hzero : Text.hexValue? '0' = some 0 := by decide
  have hn : 16 * (n / 16) + n % 16 = n := Nat.div_add_mod n 16
  rw [stringPieces]
  simp [hhigh, hlow, hzero, hn, Option.map_eq_bind]

/-- Every character is escaped as one piece, which denotes it. -/
theorem exists_piece (c : Char) : ∃ piece,
    (∀ tail, stringPieces (escapeChar c ++ tail) =
      (stringPieces tail).map fun found => (piece :: found.1, found.2)) ∧
    ∀ pieces, denote? (piece :: pieces) = (denote? pieces).map (c :: ·) := by
  by_cases hshort : c = '"' ∨ c = '\\' ∨ c = '\n' ∨ c = '\r' ∨ c = '\t'
  · refine ⟨.char c, fun tail => ?_, fun _ => rfl⟩
    rcases hshort with rfl | rfl | rfl | rfl | rfl <;>
      simp [escapeChar, stringPieces, Option.map_eq_bind]
  simp only [not_or] at hshort
  obtain ⟨hquote, hslash, hnewline, hreturn, htab⟩ := hshort
  simp only [escapeChar, hquote, hslash, hnewline, hreturn, htab, ↓reduceIte]
  by_cases hcontrol : c.toNat < 0x20
  · simp only [hcontrol, ↓reduceIte]
    refine ⟨.unit c.toNat, fun tail => stringPieces_hex hcontrol tail, fun pieces => ?_⟩
    -- Control characters are far below the surrogates.
    have hhigh : ¬(0xD800 ≤ c.toNat ∧ c.toNat < 0xDC00) := by omega
    have hlow : ¬(0xDC00 ≤ c.toNat ∧ c.toNat < 0xE000) := by omega
    rw [denote?.eq_def]
    simp only [hhigh, hlow, ↓reduceIte, Char.ofNat_toNat]
  · simp only [hcontrol, ↓reduceIte]
    exact ⟨.char c, stringPieces_plain hquote hslash hcontrol, fun _ => rfl⟩

/-- A quoted string ends at its closing quote, and denotes what was quoted. -/
theorem stringPieces_quoted (cs rest : List Char) : ∃ pieces,
    stringPieces (cs.flatMap escapeChar ++ '"' :: rest) = some (pieces, rest) ∧
      denote? pieces = some cs := by
  induction cs with
  | nil => exact ⟨[], by simp [stringPieces], rfl⟩
  | cons c cs ih =>
    obtain ⟨pieces, hpieces, hdenote⟩ := ih
    obtain ⟨piece, hread, hpiece⟩ := exists_piece c
    refine ⟨piece :: pieces, ?_, ?_⟩
    · rw [List.flatMap_cons, List.append_assoc, hread, hpieces]
      rfl
    · rw [hpiece, hdenote]
      rfl

theorem quote_append (s : String) (rest : List Char) : ∃ tail pieces,
    (quote s).toList ++ rest = '"' :: tail ∧ stringPieces tail = some (pieces, rest) ∧
      textOf? pieces = some s := by
  obtain ⟨pieces, hpieces, hdenote⟩ := stringPieces_quoted s.toList rest
  refine ⟨_, pieces, ?_, hpieces, ?_⟩
  · simp [quote]
  · rw [textOf?, hdenote, Option.map_some, String.ofList_toList]

/-! ## Numbers -/

/-- What may follow a number without being taken for a part of it. -/
def Stops (rest : List Char) : Prop :=
  ∀ c tail, rest = c :: tail → isDigit c = false ∧ c ≠ '.' ∧ c ≠ 'e' ∧ c ≠ 'E'

theorem Stops.nil : Stops [] := nofun

theorem Stops.cons {c : Char} (tail : List Char)
    (h : isDigit c = false ∧ c ≠ '.' ∧ c ≠ 'e' ∧ c ≠ 'E') : Stops (c :: tail) := by
  rintro c tail ⟨⟩
  exact h

section

variable {rest : List Char} (hrest : Stops rest)

variable {cs left : List Char} {negative : Bool} {j : Json}

include hrest

theorem takeWhile_append_stops (cs : List Char) :
    (cs ++ rest).takeWhile isDigit = cs.takeWhile isDigit := by
  induction cs with
  | nil =>
    cases rest with
    | nil => rfl
    | cons c tail => simp [(hrest c tail rfl).1]
  | cons c cs ih =>
    rw [List.cons_append, List.takeWhile_cons, List.takeWhile_cons, ih]

theorem dropWhile_append_stops (cs : List Char) :
    (cs ++ rest).dropWhile isDigit = cs.dropWhile isDigit ++ rest := by
  induction cs with
  | nil =>
    cases rest with
    | nil => rfl
    | cons c tail => simp [(hrest c tail rfl).1]
  | cons c cs ih =>
    rw [List.cons_append, List.dropWhile_cons, List.dropWhile_cons, ih]
    split <;> rfl

theorem digits_append (cs : List Char) :
    digits (cs ++ rest) = ((digits cs).1, (digits cs).2 ++ rest) := by
  rw [digits, digits, takeWhile_append_stops hrest, dropWhile_append_stops hrest]

theorem fraction?_append {ds : List Nat} (h : fraction? cs = some (ds, left)) :
    fraction? (cs ++ rest) = some (ds, left ++ rest) := by
  unfold fraction? at h
  split at h
  · next tail =>
    simp only [List.cons_append, fraction?, digits_append hrest]
    revert h
    obtain ⟨found, after⟩ := digits tail
    intro h
    cases found with
    | nil => cases h
    | cons d ds =>
      cases h
      rfl
  -- Nothing was read, so the point would have to come from what follows the number.
  · next hpoint =>
    cases h
    unfold fraction?
    split
    · next tail heq =>
      cases cs with
      | nil => exact absurd rfl (hrest '.' tail heq).2.1
      | cons c cs =>
        cases heq
        exact absurd rfl (hpoint cs)
    · rfl

theorem exponentDigits?_append {e : Option Int} (h : exponentDigits? negative cs = some (e, left)) :
    exponentDigits? negative (cs ++ rest) = some (e, left ++ rest) := by
  unfold exponentDigits? at h ⊢
  rw [digits_append hrest]
  revert h
  obtain ⟨ds, after⟩ := digits cs
  intro h
  cases ds with
  | nil => cases h
  | cons d ds =>
    cases h
    rfl

omit hrest in
/-- A sign is one character, which a text has at its front or does not. -/
theorem exponentSign_append (h : cs ≠ []) :
    exponentSign (cs ++ rest) = ((exponentSign cs).1, (exponentSign cs).2 ++ rest) := by
  cases cs with
  | nil => exact absurd rfl h
  | cons c tail =>
    unfold exponentSign
    split
    · next heq =>
      cases heq
      rfl
    · next heq =>
      cases heq
      rfl
    · next hplus hminus =>
      split
      · next heq =>
        cases heq
        exact absurd rfl (hplus _)
      · next heq =>
        cases heq
        exact absurd rfl (hminus _)
      · rfl

theorem exponent?_append {e : Option Int} (h : exponent? cs = some (e, left)) :
    exponent? (cs ++ rest) = some (e, left ++ rest) := by
  cases cs with
  | nil =>
    cases h
    cases rest with
    | nil => rfl
    | cons c tail =>
      have hc : ¬(c = 'e' ∨ c = 'E') := not_or.mpr (hrest c tail rfl).2.2
      simp only [List.nil_append, exponent?, hc, ↓reduceIte]
  | cons c tail =>
    by_cases hmark : c = 'e' ∨ c = 'E'
    · simp only [List.cons_append, exponent?, hmark, ↓reduceIte] at h ⊢
      -- A mark without digits is refused, so the sign is looked for in the number itself.
      have htail : tail ≠ [] := by
        rintro rfl
        cases h
      rw [exponentSign_append htail]
      exact exponentDigits?_append hrest h
    · simp only [exponent?, hmark, ↓reduceIte] at h
      cases h
      simp only [List.cons_append, exponent?, hmark, ↓reduceIte]

omit hrest in
theorem unsigned?_eq_some :
    unsigned? negative cs = some (j, left) ↔
      wholeOk (digits cs).1 = true ∧ ∃ ds afterFraction e,
        fraction? (digits cs).2 = some (ds, afterFraction) ∧
          exponent? afterFraction = some (e, left) ∧
            j = (⟨negative, (digits cs).1, ds, e⟩ : NumberLiteral).toJson := by
  constructor
  · intro h
    obtain ⟨_, hwhole, h⟩ := Option.bind_eq_some_iff.mp h
    obtain ⟨⟨ds, afterFraction⟩, hfraction, h⟩ := Option.bind_eq_some_iff.mp h
    obtain ⟨⟨e, afterExponent⟩, hexponent, h⟩ := Option.bind_eq_some_iff.mp h
    cases h
    exact ⟨(Option.guard_eq_some' _).mp hwhole, ds, afterFraction, e, hfraction, hexponent, rfl⟩
  · rintro ⟨hwhole, ds, afterFraction, e, hfraction, hexponent, rfl⟩
    refine Option.bind_eq_some_iff.mpr ⟨(), (Option.guard_eq_some' _).mpr hwhole, ?_⟩
    refine Option.bind_eq_some_iff.mpr ⟨_, hfraction, ?_⟩
    exact Option.bind_eq_some_iff.mpr ⟨_, hexponent, rfl⟩

theorem unsigned?_append (h : unsigned? negative cs = some (j, left)) :
    unsigned? negative (cs ++ rest) = some (j, left ++ rest) := by
  obtain ⟨hwhole, ds, afterFraction, e, hfraction, hexponent, rfl⟩ := unsigned?_eq_some.mp h
  rw [unsigned?_eq_some, digits_append hrest]
  exact ⟨hwhole, ds, _, e, fraction?_append hrest hfraction, exponent?_append hrest hexponent, rfl⟩

/-- Reading a number does not depend on what follows it. -/
theorem number?_append (h : number? cs = some (j, left)) :
    number? (cs ++ rest) = some (j, left ++ rest) := by
  unfold number? at h
  split at h
  · exact unsigned?_append hrest h
  · next hminus =>
    cases cs with
    | nil => cases h
    | cons c tail =>
      unfold number?
      split
      · next heq =>
        cases heq
        exact absurd rfl (hminus tail)
      · exact unsigned?_append hrest h

end

theorem isDigit_of_unsigned? {negative : Bool} {c : Char} {tail : List Char}
    {found : Json × List Char} (h : unsigned? negative (c :: tail) = some found) :
    isDigit c = true := by
  obtain ⟨hwhole, -⟩ := unsigned?_eq_some.mp h
  by_contra hc
  rw [digits, List.takeWhile_cons_of_neg hc] at hwhole
  cases hwhole

/-- A number starts with a digit or a minus sign. -/
theorem head_of_number? {cs : List Char} {found : Json × List Char} (h : number? cs = some found) :
    ∃ c tail, cs = c :: tail ∧ (c = '-' ∨ isDigit c = true) := by
  unfold number? at h
  split at h
  · exact ⟨'-', _, rfl, .inl rfl⟩
  · cases cs with
    | nil => cases h
    | cons c tail => exact ⟨c, tail, rfl, .inr (isDigit_of_unsigned? h)⟩

/-! ## Integers -/

theorem isDigit_of_mem_toDigits {n : Nat} {c : Char} (h : c ∈ Nat.toDigits 10 n) :
    isDigit c = true := by
  have hdigit := Nat.isDigit_of_mem_toDigits (by decide) (by decide) h
  change ('0'.val ≤ c.val && c.val ≤ '9'.val) = true at hdigit
  simp only [Bool.and_eq_true, decide_eq_true_eq] at hdigit
  exact decide_eq_true hdigit

theorem digits_toDigits (n : Nat) :
    digits (Nat.toDigits 10 n) = ((Nat.toDigits 10 n).map fun c => c.toNat - '0'.toNat, []) := by
  have htake : (Nat.toDigits 10 n).takeWhile isDigit = Nat.toDigits 10 n :=
    List.takeWhile_eq_self_iff.mpr fun _ hc => isDigit_of_mem_toDigits hc
  have hdrop : (Nat.toDigits 10 n).dropWhile isDigit = [] :=
    List.dropWhile_eq_nil_iff.mpr fun _ hc => isDigit_of_mem_toDigits hc
  rw [digits, htake, hdrop]

/-- Zero is written with one digit, and no other number starts with a zero. -/
theorem wholeOk_toDigits (n : Nat) :
    wholeOk ((Nat.toDigits 10 n).map fun c => c.toNat - '0'.toNat) = true := by
  -- The induction is on the digits, from the last one to the first.
  have hlead : ∀ n, 0 < n → ∃ d rest, Nat.toDigits 10 n = Nat.digitChar d :: rest ∧ 0 < d ∧
      d < 10 := by
    intro n
    induction n using Nat.base_induction 10 (by decide) with
    | single m hm => exact fun hpos => ⟨m, [], Nat.toDigits_of_lt_base hm, hpos, hm⟩
    | digit m k hk hm ih =>
      intro _
      obtain ⟨d, rest, hm', hd⟩ := ih hm
      refine ⟨d, rest ++ Nat.toDigits 10 k, ?_, hd⟩
      rw [← Nat.toDigits_append_toDigits (by decide) hm hk, hm', List.cons_append]
  rcases Nat.eq_zero_or_pos n with rfl | hpos
  · decide
  · obtain ⟨d, rest, hd, hd0, hd10⟩ := hlead n hpos
    have hvalue : (Nat.digitChar d).toNat - '0'.toNat = d :=
      Nat.toNat_digitChar_sub_48_of_lt_ten hd10
    rw [hd, List.map_cons, hvalue]
    unfold wholeOk
    split
    · next heq => cases heq
    · next heq =>
      have hzero := (List.cons.inj heq).1
      omega
    · rfl

/-- The literal with the digits of a natural number. -/
def decimal (negative : Bool) (n : Nat) : NumberLiteral :=
  ⟨negative, (Nat.toDigits 10 n).map fun c => c.toNat - '0'.toNat, [], none⟩

theorem unsigned?_toDigits (negative : Bool) (n : Nat) :
    unsigned? negative (Nat.toDigits 10 n) = some ((decimal negative n).toJson, []) := by
  rw [unsigned?_eq_some, digits_toDigits]
  exact ⟨wholeOk_toDigits n, [], [], none, rfl, rfl, rfl⟩

theorem foldl_toDigits (n : Nat) : ((Nat.toDigits 10 n).map fun c => c.toNat - '0'.toNat).foldl
    (fun acc d => 10 * acc + d) 0 = n := by
  rw [List.foldl_map]
  exact Nat.ofDigitChars_ten_toDigits

/-- The integers that are read as integers: signed or unsigned words of 64 bits. -/
def IsWord (n : Int) : Prop := -0x8000000000000000 ≤ n ∧ n < 0x10000000000000000

theorem toJson_decimal {n : Nat} (h : n < 0x10000000000000000) :
    (decimal false n).toJson = .int n := by
  have hint : (decimal false n).toInt? = some (n : Int) := by
    unfold NumberLiteral.toInt? decimal
    simp -implicitDefEqProofs only [foldl_toDigits, h, List.isEmpty_nil, Option.isNone_none,
      and_self, ↓reduceIte, Bool.false_eq_true]
  rw [NumberLiteral.toJson, hint]

theorem toJson_decimal_negative {n : Nat} (hpos : 0 < n) (h : n ≤ 0x8000000000000000) :
    (decimal true n).toJson = .int (-n) := by
  have hint : (decimal true n).toInt? = some (-(n : Int)) := by
    unfold NumberLiteral.toInt? decimal
    simp -implicitDefEqProofs only [foldl_toDigits, hpos, h, List.isEmpty_nil,
      Option.isNone_none, and_self, ↓reduceIte]
  rw [NumberLiteral.toJson, hint]

theorem number?_toDigits (n : Nat) :
    number? (Nat.toDigits 10 n) = unsigned? false (Nat.toDigits 10 n) := by
  unfold number?
  split
  · next heq =>
    have hminus : isDigit '-' = true := isDigit_of_mem_toDigits (n := n) (by simp [heq])
    exact absurd hminus (by decide)
  · rfl

/-- An integer that fits a word is read from its decimal text. -/
theorem number?_toString {n : Int} (h : IsWord n) :
    number? (toString n).toList = some (.int n, []) := by
  obtain ⟨hlow, hhigh⟩ := h
  cases n with
  | ofNat n =>
    have htext : (toString (Int.ofNat n)).toList = Nat.toDigits 10 n := Nat.toList_repr
    rw [Int.ofNat_eq_natCast] at hhigh
    rw [htext, number?_toDigits, unsigned?_toDigits, toJson_decimal (by omega)]
    rfl
  | negSucc n =>
    have htext : (toString (Int.negSucc n)).toList = '-' :: Nat.toDigits 10 (n + 1) := by
      show ("-" ++ (n + 1).repr).toList = _
      rw [String.toList_append, Nat.toList_repr]
      rfl
    have hnumber : ∀ cs, number? ('-' :: cs) = unsigned? true cs := fun _ => rfl
    rw [htext, hnumber, unsigned?_toDigits, toJson_decimal_negative (by omega) (by omega)]
    rfl

/-! ## Values -/

theorem skipSpace_cons {c : Char} (h : isSpace c = false) (tail : List Char) :
    skipSpace (c :: tail) = c :: tail :=
  List.dropWhile_cons_of_neg (by simp [h])

/-- A double that is read from the text it is written as. -/
def ReadsBack (x : Binary64) : Prop := number? (floatText x).toList = some (.float x, [])

/-- The values that have a text: integers fit a word, and doubles are read back. -/
inductive Writable : Json → Prop
  | null : Writable null
  | bool (b : Bool) : Writable (bool b)
  | int {n : Int} (h : IsWord n) : Writable (int n)
  | float {x : Binary64} (h : ReadsBack x) : Writable (float x)
  | str (s : String) : Writable (str s)
  | arr {items : List Json} (h : ∀ j ∈ items, Writable j) : Writable (arr items)
  | obj {fields : List (String × Json)} (h : ∀ f ∈ fields, Writable f.2) : Writable (obj fields)

/-- The text of a value: it is what is appended when the value is written, and the value is what is
read from it, given enough calls, whatever follows. It never starts with white space or a closing
bracket. -/
structure Spells (t : List Char) (j : Json) : Prop where
  written : ∀ out, (write out j).toList = out.toList ++ t
  head : ∃ c tail, t = c :: tail ∧ isSpace c = false ∧ c ≠ ']'
  read : ∀ bound rest, 2 * t.length ≤ bound + 1 → Stops rest →
    value? (bound + 1) (t ++ rest) = some (j, rest)

/-- A number is none of the other values: its first character gives it away. -/
theorem value?_number {c : Char} (hc : c = '-' ∨ isDigit c = true) :
    isSpace c = false ∧ c ≠ ']' ∧
      ∀ bound tail, value? (bound + 1) (c :: tail) = number? (c :: tail) := by
  have hother : ∀ c', ¬(c' = '-' ∨ isDigit c' = true) → c ≠ c' := by
    rintro c' hc' rfl
    exact hc' hc
  have hspace : isSpace c = false := by
    simp only [isSpace, decide_eq_false_iff_not, not_or]
    exact ⟨hother _ (by decide), hother _ (by decide), hother _ (by decide), hother _ (by decide)⟩
  refine ⟨hspace, hother _ (by decide), fun bound tail => ?_⟩
  rw [value?, skipSpace_cons hspace]
  split
  case h_7 => rfl
  all_goals
    next heq => exact absurd (List.cons.inj heq).1 (hother _ (by decide))

namespace Spells

theorem number {t : List Char} {j : Json} (hwrite : ∀ out, (write out j).toList = out.toList ++ t)
    (hread : number? t = some (j, [])) : Spells t j := by
  obtain ⟨c, tail, rfl, hc⟩ := head_of_number? hread
  obtain ⟨hspace, hbracket, hvalue⟩ := value?_number hc
  refine ⟨hwrite, ⟨c, tail, rfl, hspace, hbracket⟩, fun bound rest _ hrest => ?_⟩
  rw [List.cons_append, hvalue]
  exact number?_append hrest hread

theorem null : Spells ['n', 'u', 'l', 'l'] null :=
  ⟨fun _ => String.toList_append, ⟨_, _, rfl, by decide⟩, fun _ _ _ _ => rfl⟩

theorem bool (b : Bool) :
    Spells (if b then ['t', 'r', 'u', 'e'] else ['f', 'a', 'l', 's', 'e']) (bool b) := by
  cases b <;>
    exact ⟨fun _ => String.toList_append, ⟨_, _, rfl, by decide⟩, fun _ _ _ _ => rfl⟩

theorem str (s : String) : Spells (quote s).toList (str s) := by
  refine ⟨fun out => String.toList_append, ?_, fun bound rest _ _ => ?_⟩
  · exact ⟨'"', _, by rw [quote, String.toList_ofList, List.cons_append], by decide⟩
  · obtain ⟨tail, pieces, htail, hpieces, htext⟩ := quote_append s rest
    have hskip := skipSpace_cons (c := '"') (by decide) tail
    simp only [htail, value?, hskip, hpieces, Option.bind_eq_bind, Option.bind_some, htext]
    rfl

/-- The reader of a value, as its callers use it. -/
theorem read_of_le {t : List Char} {j : Json} (h : Spells t j) {bound : Nat}
    (hbound : 2 * t.length ≤ bound) {rest : List Char} (hrest : Stops rest) :
    value? bound (t ++ rest) = some (j, rest) := by
  obtain ⟨c, tail, rfl, -⟩ := h.head
  cases bound with
  | zero => simp at hbound
  | succ bound => exact h.read bound rest hbound hrest

end Spells

/-! ## Arrays and objects -/

variable {t u v : List Char} {j : Json} {items : List Json} {f : String × Json}
variable {fields : List (String × Json)}

/-- What stands behind one of several things: the bracket that closes, or a comma and the others. -/
inductive Behind {α : Type} (close : Char) (All : List Char → List α → Prop) :
    List Char → List α → Prop
  | last : Behind close All [close] []
  | more {u : List Char} {rest : List α} (hne : rest ≠ []) (hu : All u rest) :
      Behind close All (',' :: u) rest

/-- If each thing has a text that others can stand behind, then so has every nonempty list. -/
theorem exists_joined {α : Type} {One : List Char → α → Prop} {All : List Char → List α → Prop}
    {close : Char}
    (hcons : ∀ {t v a rest}, One t a → Behind close All v rest → ∃ u, All u (a :: rest))
    {l : List α} (hne : l ≠ []) (h : ∀ a ∈ l, ∃ t, One t a) : ∃ u, All u l := by
  induction l with
  | nil => exact absurd rfl hne
  | cons a rest ih =>
    obtain ⟨⟨t, ht⟩, hrest⟩ := List.forall_mem_cons.mp h
    by_cases hempty : rest = []
    · subst hempty
      exact hcons ht .last
    · obtain ⟨u, hu⟩ := ih hempty hrest
      exact hcons ht (.more hempty hu)

/-- The text of the items of an array, up to its closing bracket. -/
structure SpellsItems (u : List Char) (items : List Json) : Prop where
  written : ∀ out, (writeItems out items).toList = out.toList ++ u
  head : ∃ c tail, u = c :: tail ∧ isSpace c = false ∧ c ≠ ']'
  read : ∀ bound done rest, 2 * u.length ≤ bound + 1 →
    items? bound done (u ++ rest) = some (arr (done.reverse ++ items), rest)

theorem SpellsItems.cons (h : Spells t j) (hv : Behind ']' SpellsItems v items) :
    SpellsItems (t ++ v) (j :: items) := by
  refine ⟨fun out => ?_, ?_, fun bound done rest hbound => ?_⟩
  · cases hv with
    | last => rw [writeItems, String.toList_push, h.written, List.append_assoc]
    | more hitems hu =>
      rw [writeItems]
      · rw [hu.written, String.toList_push, h.written]
        simp
      · exact hitems
  · obtain ⟨c, tail, rfl, hc⟩ := h.head
    exact ⟨c, _, rfl, hc⟩
  · obtain ⟨c, u, rfl⟩ : ∃ c u, v = c :: u := by cases hv <;> exact ⟨_, _, rfl⟩
    -- Behind the item comes a comma or a bracket, and with neither can a number go on.
    have hstops : Stops (c :: u ++ rest) := by cases hv <;> exact .cons _ (by decide)
    rw [List.length_append, List.length_cons] at hbound
    cases bound with
    | zero => omega
    | succ bound =>
      have hvalue : value? bound _ = _ := h.read_of_le (by omega) hstops
      simp only [List.append_assoc, items?, hvalue, Option.bind_eq_bind, Option.bind_some]
      cases hv with
      | last => simp [skipSpace_cons (c := ']') (by decide)]
      | more _ hu =>
        have hread := hu.read bound (j :: done) rest (by omega)
        rw [List.reverse_cons, List.append_assoc, List.singleton_append] at hread
        simpa [skipSpace_cons (c := ',') (by decide)] using hread

theorem Spells.arr (h : ∀ j ∈ items, ∃ t, Spells t j) : ∃ t, Spells t (arr items) := by
  have hskip := skipSpace_cons (c := '[') (by decide)
  by_cases hempty : items = []
  · subst hempty
    refine ⟨['[', ']'], fun out => ?_, ⟨_, _, rfl, by decide⟩, fun _ _ _ _ => rfl⟩
    simp [write, writeItems]
  · obtain ⟨u, hu⟩ := exists_joined (fun ht hv => ⟨_, SpellsItems.cons ht hv⟩) hempty h
    refine ⟨'[' :: u, fun out => ?_, ⟨_, _, rfl, by decide⟩, fun bound rest hbound _ => ?_⟩
    · rw [write, hu.written, String.toList_push, List.append_assoc, List.singleton_append]
    · obtain ⟨c, tail, rfl, hspace, hbracket⟩ := hu.head
      have hread := hu.read bound [] rest (by simp at hbound ⊢; omega)
      rw [List.cons_append, value?, hskip]
      simp only [List.cons_append, skipSpace_cons hspace] at hread ⊢
      split
      · next heq => exact absurd (List.cons.inj heq).1 hbracket
      · exact hread

/-- The text of the fields of an object, up to its closing brace. -/
structure SpellsFields (u : List Char) (fields : List (String × Json)) : Prop where
  written : ∀ out, (writeFields out fields).toList = out.toList ++ u
  head : ∃ tail, u = '"' :: tail
  read : ∀ bound done rest, 2 * u.length ≤ bound + 1 →
    fields? bound (some done) (u ++ rest) = some (obj (done.reverse ++ fields), rest)

theorem SpellsFields.cons (h : Spells t f.2) (hv : Behind '\x7d' SpellsFields v fields) :
    SpellsFields ((quote f.1).toList ++ ':' :: (t ++ v)) (f :: fields) := by
  refine ⟨fun out => ?_, ?_, fun bound done rest hbound => ?_⟩
  · cases hv with
    | last =>
      rw [writeFields, String.toList_push, h.written, String.toList_append, String.toList_append]
      simp
    | more hfields hu =>
      rw [writeFields]
      · rw [hu.written, String.toList_push, h.written]
        simp
      · exact hfields
  · obtain ⟨tail, _, htail, -⟩ := quote_append f.1 (':' :: (t ++ v))
    exact ⟨tail, htail⟩
  · obtain ⟨c, u, rfl⟩ : ∃ c u, v = c :: u := by cases hv <;> exact ⟨_, _, rfl⟩
    have hstops : Stops (c :: u ++ rest) := by cases hv <;> exact .cons _ (by decide)
    simp only [List.length_append, List.length_cons] at hbound
    cases bound with
    | zero => omega
    | succ bound =>
      have hvalue : value? bound _ = _ := h.read_of_le (by omega) hstops
      obtain ⟨tail, pieces, htail, hpieces, htext⟩ :=
        quote_append f.1 (':' :: (t ++ (c :: u ++ rest)))
      -- Nothing that is written has space around it, so there is none to skip.
      have hquote := skipSpace_cons (c := '"') (by decide) tail
      have hcolon := skipSpace_cons (c := ':') (by decide) (t ++ (c :: u ++ rest))
      rw [List.append_assoc, List.cons_append, List.append_assoc, htail]
      simp only [fields?, hquote, hpieces, hcolon, hvalue, htext, Option.bind_eq_bind,
        Option.bind_some]
      cases hv with
      | last => simp [skipSpace_cons (c := '\x7d') (by decide)]
      | more _ hu =>
        have hread := hu.read bound (f :: done) rest (by omega)
        rw [List.reverse_cons, List.append_assoc, List.singleton_append] at hread
        simpa [skipSpace_cons (c := ',') (by decide)] using hread

theorem Spells.obj (h : ∀ f ∈ fields, ∃ t, Spells t f.2) : ∃ t, Spells t (obj fields) := by
  by_cases hempty : fields = []
  · subst hempty
    refine ⟨['\x7b', '\x7d'], fun out => ?_, ⟨_, _, rfl, by decide⟩, fun _ _ _ _ => rfl⟩
    simp [write, writeFields]
  · obtain ⟨u, hu⟩ := exists_joined (fun ht hv => ⟨_, SpellsFields.cons ht hv⟩) hempty h
    refine ⟨'\x7b' :: u, fun out => ?_, ⟨_, _, rfl, by decide⟩, fun bound rest hbound _ => ?_⟩
    · rw [write, hu.written, String.toList_push, List.append_assoc, List.singleton_append]
    · rw [List.length_cons] at hbound
      have hread := hu.read bound [] rest (by omega)
      have hbrace := skipSpace_cons (c := '\x7b') (by decide)
      have hquote := skipSpace_cons (c := '"') (by decide)
      obtain ⟨tail, rfl⟩ := hu.head
      simp only [List.cons_append, value?, hbrace, hquote]
      exact hread

theorem Writable.exists_spells {j : Json} (h : j.Writable) : ∃ t, Spells t j := by
  induction h with
  | null => exact ⟨_, .null⟩
  | bool b => exact ⟨_, .bool b⟩
  | int hn => exact ⟨_, .number (fun _ => String.toList_append) (number?_toString hn)⟩
  | float hx => exact ⟨_, .number (fun _ => String.toList_append) hx⟩
  | str s => exact ⟨_, .str s⟩
  | arr _ ih => exact Spells.arr ih
  | obj _ ih => exact Spells.obj ih

/-- A value is read from the text it is written as. -/
theorem parse?_render {j : Json} (h : j.Writable) : parse? (render j) = some j := by
  obtain ⟨t, ht⟩ := h.exists_spells
  have htext : (render j).toList = t := ht.written ""
  have hvalue := ht.read_of_le (Nat.le_add_right _ 2) .nil
  rw [List.append_nil] at hvalue
  simp only [parse?, htext, hvalue]
  rfl

end WasmBackend.Json
