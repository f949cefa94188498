import WasmBackend.Wat.Module

/-!
# Characters of printed texts

What is printed is put together from fixed pieces, from words (numbers, labels, references to types)
and from names. Words are made of few characters (`OneWord`), so it is known which ones they avoid.
A name may hold anything; what it avoids has to be asked for.

Only two characters matter for reading a text back: the line break that ends a line and the quote
that ends a string. Nothing is said here about characters that would keep a text from being valid in
other ways.
-/

namespace WasmBackend.Text

/-- The character does not occur in the text. -/
def Avoids (c : Char) (s : String) : Prop := c ∉ s.toList

/-- The text holds no line break. -/
abbrev OneLine (s : String) : Prop := Avoids '\n' s

instance (c : Char) (s : String) : Decidable (Avoids c s) := inferInstanceAs (Decidable (¬_))

/-- The characters that end a line or a string. -/
def separators : List Char := ['\n', '"']

variable {c : Char}

/-- Can the text stand anywhere in a line and in a string? -/
def avoidsAll (s : String) : Bool := separators.all fun c => !s.toList.contains c

theorem Avoids.literal (hc : c ∈ separators) {s : String} (h : avoidsAll s = true) :
    Avoids c s := by
  intro hmem
  have hfree := List.all_eq_true.mp h c hc
  simp [hmem] at hfree

theorem Avoids.append {a b : String} (ha : Avoids c a) (hb : Avoids c b) : Avoids c (a ++ b) := by
  intro h
  rw [String.toList_append] at h
  rcases List.mem_append.mp h with h | h
  · exact ha h
  · exact hb h

theorem avoids_intercalate {sep : String} {l : List String} (hsep : Avoids c sep)
    (h : ∀ s ∈ l, Avoids c s) : Avoids c (sep.intercalate l) := by
  induction l with
  | nil =>
    rw [String.intercalate_nil]
    exact List.not_mem_nil
  | cons first rest ih =>
    have hrest := ih fun s hs => h s (List.mem_cons_of_mem _ hs)
    cases rest with
    | nil =>
      rw [String.intercalate_singleton]
      exact h first List.mem_cons_self
    | cons second rest =>
      rw [String.intercalate_cons_cons]
      exact .append (.append (h first List.mem_cons_self) hsep) hrest

/-! ## Words -/

def isWordChar (c : Char) : Bool :=
  c.isAlphanum || c == '-' || c == '.' || c == '_' || c == '$' || c == '='

/-- Letters, digits and a few signs. -/
def OneWord (s : String) : Prop := s.toList.all isWordChar = true

instance (s : String) : Decidable (OneWord s) := inferInstanceAs (Decidable (_ = true))

theorem OneWord.notMem {s : String} (h : OneWord s) (hc : isWordChar c = false) : c ∉ s.toList := by
  intro hmem
  rw [List.all_eq_true.mp h c hmem] at hc
  cases hc

theorem OneWord.avoids {s : String} (h : OneWord s) (hc : c ∈ separators) : Avoids c s := by
  apply h.notMem
  unfold separators at hc
  rcases List.mem_cons.mp hc with rfl | hc
  · rfl
  · rw [List.mem_singleton.mp hc]
    rfl

theorem OneWord.append {a b : String} (ha : OneWord a) (hb : OneWord b) : OneWord (a ++ b) := by
  unfold OneWord at *
  rw [String.toList_append, List.all_append, ha, hb]
  rfl

theorem word_ofList {cs : List Char} (h : ∀ c ∈ cs, isWordChar c = true) :
    OneWord (String.ofList cs) := by
  unfold OneWord
  rw [String.toList_ofList]
  exact List.all_eq_true.mpr h

theorem isWordChar_digit {n : Nat} (h : c ∈ Nat.toDigits 10 n) : isWordChar c = true := by
  have hdigit : c.isDigit = true := Nat.isDigit_of_mem_toDigits (by decide) (by decide) h
  simp [isWordChar, Char.isAlphanum, hdigit]

theorem word_nat (n : Nat) : OneWord (toString n) := by
  show OneWord (String.ofList (Nat.toDigits 10 n))
  exact word_ofList fun _ => isWordChar_digit

theorem word_int (n : Int) : OneWord (toString n) := by
  cases n with
  | ofNat n => exact word_nat n
  | negSucc n => exact OneWord.append (a := "-") (by decide) (word_nat (n + 1))

theorem word_positional (d : ShortDecimal) : OneWord (DecimalNotation.positional d) := by
  have hdigits : ∀ c ∈ Nat.toDigits 10 d.digits, isWordChar c = true := fun _ => isWordChar_digit
  have hzeros (n : Nat) : OneWord (String.ofList (List.replicate n '0')) := by
    apply word_ofList
    intro c hc
    rw [List.eq_of_mem_replicate hc]
    rfl
  unfold DecimalNotation.positional
  dsimp only
  split
  · exact .append (.append (word_ofList hdigits) (hzeros _)) (by decide)
  · split
    · refine .append (.append (word_ofList ?_) (by decide)) (word_ofList ?_)
      · exact fun c hc => hdigits c (List.mem_of_mem_take hc)
      · exact fun c hc => hdigits c (List.mem_of_mem_drop hc)
    · exact .append (.append (by decide) (hzeros _)) (word_ofList hdigits)

theorem word_scientific (d : ShortDecimal) : OneWord (DecimalNotation.scientific d) := by
  have hdigits : ∀ c ∈ Nat.toDigits 10 d.digits, isWordChar c = true := fun _ => isWordChar_digit
  unfold DecimalNotation.scientific
  refine .append (.append (.append (word_ofList ?_) ?_) (by decide)) (word_int _)
  · exact fun c hc => hdigits c (List.mem_of_mem_take hc)
  · split
    · decide
    · exact .append (by decide) (word_ofList fun c hc => hdigits c (List.mem_of_mem_drop hc))

theorem word_write (n : DecimalNotation) (f : BinaryFormat) (negative : Bool) (magnitude : Nat) :
    OneWord (n.write f negative magnitude) := by
  have hbody (p : Prop) [Decidable p] (d : ShortDecimal) :
      OneWord (if p then DecimalNotation.positional d else DecimalNotation.scientific d) := by
    split
    · exact word_positional d
    · exact word_scientific d
  unfold DecimalNotation.write
  dsimp only
  split
  · exact .append (by decide) (hbody _ _)
  · exact hbody _ _

theorem word_floatLiteral (x : FloatLiteral) : OneWord x.text := by
  cases x with
  | whole n => exact word_nat n
  | decimal x =>
    unfold FloatLiteral.text
    dsimp only
    split
    · decide
    · split
      · exact word_write _ _ _ _
      · split <;> decide

theorem word_label (l : Label) : OneWord l.text := by
  obtain ⟨kind, loop⟩ := l
  cases kind <;> exact OneWord.append (by decide) (word_nat _)

theorem word_valType (t : ValType) : OneWord t.text := by
  cases t <;> decide

theorem word_typeName {encoded : String} (h : OneWord encoded) : OneWord (Wat.typeName encoded) :=
  .append (.append (by decide) h) (by decide)

end WasmBackend.Text
